import Cascade.Control.Dispatch
import Cascade.Evaluation.Evaluate
import Cascade.Flow.Override

/-!
# One pass over a document

A pass rebuilds the tree. Every node is flowed at its place over the snapshot that the previous pass
left, so the order of evaluation inside a pass never shows in the result. A node that fails, or that
waits for another one, keeps its expression and receives a diagnostic.

Directives and controls decide on the shape of the container that carries them. What they produce is
flowed in the same pass, so a pass is bounded by a number of steps and not by the tree alone.

## Main definitions

* `flowExpression`, `flowString`, `flowMap`, `flowList`: the nodes of one kind, given how their
  children are flowed.
* `flowNode`: the pass over a subtree. A node that is removed has no result.
-/

namespace Cascade

/-- A node that did not resolve in this pass. -/
def Node.withDiagnostic (node : Node) (u : Unresolved) : Node :=
  { node with annotations :=
      { node.annotations with
        hasError := u.isError
        failed := u.info.failed
        issue := u.info.issue } }

/-- An expression that did not resolve in this pass. -/
def Node.stillExpression (node : Node) (e : Expr) (u : Unresolved) : Node :=
  (node.withValue (.expression e)).withDiagnostic u

/-- What is noted on a container whose directive is carried out. A container does not become a
merged value by a directive in it. -/
def Info.annotateContainer (info : Info) (a : Annotations) : Annotations :=
  { info.annotate a with merged := a.merged }

/-- The value of a directive. An absent one is nil. -/
def Resolved.directiveValue (r : Resolved) : Value :=
  if r.info.undefined then .nil else r.value

section

variable (engine : Engine) (deeper : Deeper)

/-- The outcome of an expression, as a value. -/
def outcomeOf (e : Expr) (binding : Binding) : Run (Except Unresolved Resolved) :=
  (evaluate engine deeper e binding).run

/-! ### Leaves -/

/-- The node of a resolved expression. -/
def resolvedNode (node : Node) (e : Expr) (r : Resolved) : Option Node :=
  if r.info.undefined then none
  else some
    ⟨r.value, e.staticInfo.annotate (r.info.annotate node.annotations.clearIssue), node.source⟩

/-- The value that a state expression takes from the state document. -/
def expressionState? (node : Node) (e : Expr) (binding : Binding) : Option Node :=
  if e.staticInfo.state then
    (binding.stateValue? engine.defaultKey).map fun state =>
      { state with annotations := e.staticInfo.annotate node.annotations.clearIssue }
  else none

/-- An expression: overridden by a stub, taken from the state, or evaluated. -/
def flowExpression (node : Node) (e : Expr) (binding : Binding) (overridable : Bool) :
    Run (Option Node) :=
  match if overridable then expressionOverride? engine.defaultKey node e binding else none with
  | some result => pure (some result)
  | none =>
    match expressionState? engine node e binding with
    | some result => pure (some result)
    | none => do
      match ← outcomeOf engine deeper e binding with
      | .ok resolved => return resolvedNode node e resolved
      | .error u => return some (node.stillExpression e u)

/-- A node that is evaluated to itself. -/
def flowLeaf (node : Node) (binding : Binding) (overridable : Bool) : Node :=
  ((if overridable then stubOverride? engine.defaultKey node binding else none)).getD node

/-- A string, which may hold an expression. -/
def flowString (node : Node) (text : String) (binding : Binding) (overridable : Bool) :
    Run (Option Node) :=
  match Embedded.classify text with
  | .literal | .escaped _ => pure (some (flowLeaf engine node binding overridable))
  | .expression e =>
    flowExpression engine deeper (node.withValue (.expression e)) e binding overridable
  | .broken problem =>
    match if overridable then stubOverride? engine.defaultKey node binding else none with
    | some result => pure (some result)
    | none => pure (some
        { node with annotations :=
            { node.annotations with
              hasError := true
              issue := some (.ofMessage ("parse error: " ++ problem.message)) } })

/-! ### Maps -/

/-- How a node below is flowed. -/
abbrev FlowBelow := Node → Binding → Bool → Run (Option Node)

variable (below : FlowBelow)

/-- Flows a node that a control needs complete. Stubs do not override it. -/
def flowComplete (node : Node) (binding : Binding) : Eval Node := do
  completeInput engine.defaultKey node (← ExceptT.lift (below node binding false))

/-- The template that a map is captured as. -/
def templateNode (node : Node) (fields : Fields Node) (directive : Expr) : Node :=
  ⟨.template (node.withValue (.map (Fields.erase directiveKey fields))),
    directive.staticInfo.annotate node.annotations.clearIssue, node.source⟩

/-- What the directive of a map leaves: fields that are flowed on, or a value in place of the map.
-/
inductive Spliced where
  | fields (fields : Fields Node) (annotations : Annotations)
  | value (node : Node)

/-- A map with the value of its directive spliced in. -/
def spliceDirective (node : Node) (fields : Fields Node) (r : Resolved) : Spliced :=
  let own := Fields.erase directiveKey fields
  let annotations := r.info.annotateContainer node.annotations.clearIssue
  match r.directiveValue with
  | .nil => .fields own annotations
  | .map spliced =>
    if r.info.replace then .fields spliced { annotations with merged := true }
    else .fields (Fields.fill own spliced) annotations
  | other => .value ⟨other, { annotations with merged := true }, node.source⟩

/-- The directive of a map, carried out. -/
def flowDirective (node : Node) (fields : Fields Node) (directive : Option (Node × Expr))
    (binding : Binding) : Run Spliced :=
  match directive with
  | none => pure (.fields fields node.annotations.clearIssue)
  | some (written, e) => do
    match ← outcomeOf engine deeper e binding.directive with
    | .ok resolved => return spliceDirective node fields resolved
    | .error u =>
      return .fields (Fields.insert directiveKey (written.stillExpression e u) fields)
        node.annotations.clearIssue

/-- The fields of a map, each at its place. A directive that is left stays as it is. -/
def flowFields (binding : Binding) (overridable : Bool) : Fields Node → Run (Fields Node)
  | [] => pure []
  | (key, child) :: rest => do
    let flowed ←
      if key = directiveKey then pure (some child)
      else below child (binding.child key) overridable
    let others ← flowFields binding overridable rest
    return (flowed.map fun child => (key, child)).toList ++ others

/-- The value that a state map takes from the state document. -/
def mapState? (node : Node) (binding : Binding) : Option Node :=
  if node.annotations.state then
    (binding.stateValue? engine.defaultKey).map fun state =>
      { state with annotations := node.annotations.clearIssue }
  else none

/-- A map that carries no control: taken from the state, or flowed field by field. -/
def flowPlainMap (node : Node) (fields : Fields Node) (directive : Option (Node × Expr))
    (binding : Binding) (overridable : Bool) : Run (Option Node) :=
  match mapState? engine node binding with
  | some result => pure (some result)
  | none => do
    match ← flowDirective engine deeper node fields directive binding with
    | .value result => return some result
    | .fields fields annotations =>
      let place := match annotations.redirectPath with
        | some path => binding.redirected path
        | none => binding
      let flowed ← flowFields below place (overridable && !annotations.blocksOverride) fields
      return some ⟨.map flowed, annotations, node.source⟩

/-- A map: overridden as a whole, captured as a template, replaced by its control, or flowed field
by field. -/
def flowMap (node : Node) (fields : Fields Node) (binding : Binding) (overridable : Bool) :
    Run (Option Node) :=
  match if overridable then mapOverride? engine.defaultKey node binding else none with
  | some result => pure (some result)
  | none =>
    let directive := (Fields.find? fields directiveKey).bind fun written =>
      written.expr?.map fun e => (written, e)
    match directive.filter fun d => d.2.isTemplateDirective with
    | some (_, e) => pure (some (templateNode node fields e))
    | none =>
      match runControl engine deeper (flowComplete engine below) node fields binding with
      | none => flowPlainMap engine deeper below node fields directive binding overridable
      | some control => do
        match ← control.run with
        | .ok none => return none
        | .ok (some result) => below result binding overridable
        | .error u => return some (node.withDiagnostic u)

/-! ### Lists -/

/-- The first directive of a list, with its position. -/
def firstDirective? (items : List Node) : Option (Nat × Expr) :=
  items.zipIdx.findSome? fun (entry, position) => entry.listDirective?.map fun e => (position, e)

/-- Items put before the item at a position. -/
def insertItems (position : Nat) (added items : List Node) : List Node :=
  items.take position ++ added ++ items.drop position

theorem mem_insertItems {position : Nat} {added items : List Node} {item : Node}
    (member : item ∈ insertItems position added items) : item ∈ items ∨ item ∈ added := by
  rcases List.mem_append.mp member with front | back
  · rcases List.mem_append.mp front with before | inserted
    · exact .inl (List.mem_of_mem_take before)
    · exact .inr inserted
  · exact .inl (List.mem_of_mem_drop back)

/-- Items whose identity no known item has. -/
def newItems (key : String) (known added : List Node) : List Node :=
  let identities := known.filterMap fun entry => entry.identity? key
  added.filter fun entry => (entry.identity? key).all fun identity => !identities.contains identity

/-- What the directive of a list leaves: entries that are flowed on, or a value in place of the
list. -/
inductive SplicedList where
  | entries (entries : List Node) (annotations : Annotations)
  | value (node : Node)

/-- A list with the value of its directive spliced in. -/
def spliceListDirective (node : Node) (items : List Node) (position : Nat) (r : Resolved) :
    SplicedList :=
  let own := items.eraseIdx position
  let annotations := { r.info.annotateContainer node.annotations.clearIssue with expanded := true }
  match r.directiveValue with
  | .nil => .entries own annotations
  | .list added =>
    if r.info.replace then .entries added { annotations with merged := true }
    else if r.info.merged then
      let inserted := newItems (annotations.listKey engine.defaultKey) own added
      .entries (insertItems position inserted own) annotations
    else .entries (insertItems position added own) annotations
  | other =>
    let issue := "list directive yields " ++ other.typeName ++ ", list expected"
    .value ⟨.list items, { annotations with hasError := true, issue := some (.ofMessage issue) },
      node.source⟩

/-- A list entry whose directive did not resolve in this pass. -/
def pendingDirective (e : Expr) (u : Unresolved) (entry : Node) : Node :=
  match entry.field? directiveKey with
  | some written => entry.withValue (.map [(directiveKey, written.stillExpression e u)])
  | none => entry

/-- The directive of a list, carried out. A list without one is overridden as a whole. -/
def flowListDirective (node : Node) (items : List Node) (binding : Binding) (overridable : Bool) :
    Run SplicedList :=
  match firstDirective? items with
  | some (position, e) => do
    match ← outcomeOf engine deeper e binding.directive with
    | .ok resolved => return spliceListDirective engine node items position resolved
    | .error u =>
      return .entries (items.modify position (pendingDirective e u)) node.annotations.clearIssue
  | none =>
    match
      if overridable && !node.annotations.expanded then stubOverride? engine.defaultKey node binding
      else none with
    | some result => pure (.value result)
    | none => pure (.entries items node.annotations.clearIssue)

/-- The entries of a list from an index on, each at its place. Directives that are left stay as they
are. -/
def flowEntries (key : String) (binding : Binding) (overridable : Bool) :
    Nat → List Node → Run (List Node)
  | _, [] => pure []
  | index, entry :: rest => do
    let flowed ←
      if entry.listDirective?.isSome then pure (some entry)
      else below entry (binding.entry (entry.entrySegment index key) key) overridable
    let others ← flowEntries key binding overridable (index + 1) rest
    return flowed.toList ++ others

/-- A list. -/
def flowList (node : Node) (items : List Node) (binding : Binding) (overridable : Bool) :
    Run (Option Node) := do
  match ← flowListDirective engine deeper node items binding overridable with
  | .value result => return some result
  | .entries entries annotations =>
    let flowed ← flowEntries below (annotations.listKey engine.defaultKey) binding
      (overridable && !annotations.blocksOverride) 0 entries
    return some ⟨.list flowed, annotations, node.source⟩

/-! ### The pass -/

/-- The subtree after the pass, none if it is removed. `fuel` bounds how deep containers and what
controls and directives put into them are nested. -/
def flowNode : (fuel : Nat) → Node → Binding → (overridable : Bool) → Run (Option Node)
  | 0, _, _, _ => Run.exhausted
  | fuel + 1, node, binding, overridable =>
    match node.value with
    | .map fields => flowMap engine deeper (flowNode fuel) node fields binding overridable
    | .list items => flowList engine deeper (flowNode fuel) node items binding overridable
    | .expression e => flowExpression engine deeper node e binding overridable
    | .string text => flowString engine deeper node text binding overridable
    | _ => pure (some (flowLeaf engine node binding overridable))

end

end Cascade
