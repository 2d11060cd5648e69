import Cascade.Proofs.Unread
import Cascade.Proofs.Visits

/-!
# Nodes that passes leave alone

An expression may only compute with a node that no later pass changes. What a reference hands over
is resolved: no expression is left in it and nothing in it failed. A pass gives a resolved node back
as it is, unless a map in it carries a control: `Node.isResolved` looks at no keys, and the pass
still puts something in the place of such a map.

## Main definitions

* `Node.carriesControl`: the pass comes upon a map with the key of a control.
* `Node.isEvaluated`: nothing in the tree is left to evaluate, diagnostics aside.

## Main statements

* `flowNode_of_resolved`: a resolved node without controls flows to itself.
* `ne_of_carriesControl`: one with controls does not.
* `flowNode_eq_iff_of_resolve`: what a reference hands over stays if and only if it carries no
  control.
-/

namespace Cascade

/-! ### Controls in a tree -/

mutual

/-- A pass over the node comes upon a map with the key of a control or an option. Directives are not
flowed. -/
def Node.carriesControl : Node → Bool
  | ⟨value, _, _⟩ => Value.carriesControl value

/-- A pass over the value comes upon a map with the key of a control or an option. -/
def Value.carriesControl : Value → Bool
  | .list items => itemsCarryControl items
  | .map fields => !(controlNames fields).isEmpty || fieldsCarryControl fields
  | _ => false

/-- A pass over the items comes upon a map with the key of a control or an option. -/
def itemsCarryControl : List Node → Bool
  | [] => false
  | item :: rest => item.carriesControl || itemsCarryControl rest

/-- A pass over the fields comes upon a map with the key of a control or an option. -/
def fieldsCarryControl : List (String × Node) → Bool
  | [] => false
  | (key, child) :: rest => (key ≠ directiveKey && child.carriesControl) || fieldsCarryControl rest

end

theorem itemsCarryControl_eq_any (items : List Node) :
    itemsCarryControl items = items.any Node.carriesControl := by
  induction items with
  | nil => rw [itemsCarryControl, List.any_nil]
  | cons item rest ih => rw [itemsCarryControl, List.any_cons, ih]

theorem fieldsCarryControl_eq_any (fields : Fields Node) :
    fieldsCarryControl fields =
      fields.any fun field => field.1 ≠ directiveKey && field.2.carriesControl := by
  induction fields with
  | nil => rw [fieldsCarryControl, List.any_nil]
  | cons field rest ih => rw [fieldsCarryControl, List.any_cons, ih]

/-- No stub and no state document has a value for nodes of the document. -/
structure Binding.IsAlone (b : Binding) : Prop where
  stubs : b.document.stubs = []
  state : b.document.state = none

namespace Binding.IsAlone

variable {b : Binding}

theorem child (alone : b.IsAlone) (segment : String) : (b.child segment).IsAlone :=
  ⟨alone.stubs, alone.state⟩

theorem entry (alone : b.IsAlone) (segment key : String) : (b.entry segment key).IsAlone :=
  ⟨alone.stubs, alone.state⟩

theorem inside (alone : b.IsAlone) (a : Annotations) : (b.inside a).IsAlone :=
  ⟨by rw [document_inside, alone.stubs], by rw [document_inside, alone.state]⟩

end Binding.IsAlone

theorem Binding.Sound.inside {b : Binding} (sound : b.Sound) (a : Annotations) :
    (b.inside a).Sound := by
  rw [Binding.inside]
  split
  · exact sound
  · exact sound

/-! ### Nodes without expressions -/

mutual

/-- Nothing in the tree is an expression, read or unread. Diagnostics may stand in it. -/
def Node.isEvaluated : Node → Bool
  | ⟨value, _, _⟩ => Value.isEvaluated value

/-- Nothing in the value is an expression, read or unread. -/
def Value.isEvaluated : Value → Bool
  | .expression _ => false
  | .string text => !Embedded.isUnread text
  | .list items => itemsEvaluated items
  | .map fields => fieldsEvaluated fields
  | _ => true

/-- Nothing in the items is an expression, read or unread. -/
def itemsEvaluated : List Node → Bool
  | [] => true
  | item :: rest => item.isEvaluated && itemsEvaluated rest

/-- Nothing in the fields is an expression, read or unread. -/
def fieldsEvaluated : List (String × Node) → Bool
  | [] => true
  | (_, child) :: rest => child.isEvaluated && fieldsEvaluated rest

end

theorem itemsEvaluated_iff {items : List Node} :
    itemsEvaluated items = true ↔ ∀ item ∈ items, item.isEvaluated = true := by
  induction items with
  | nil => simp [itemsEvaluated]
  | cons item rest ih => simp [itemsEvaluated, ih]

theorem fieldsEvaluated_iff {fields : Fields Node} :
    fieldsEvaluated fields = true ↔ ∀ field ∈ fields, field.2.isEvaluated = true := by
  induction fields with
  | nil => simp [fieldsEvaluated]
  | cons field rest ih => simp [fieldsEvaluated, ih]

theorem Value.isEvaluated_list {items : List Node} :
    (Value.list items).isEvaluated = true ↔ ∀ item ∈ items, item.isEvaluated = true := by
  rw [Value.isEvaluated, itemsEvaluated_iff]

theorem Value.isEvaluated_map {fields : Fields Node} :
    (Value.map fields).isEvaluated = true ↔ ∀ field ∈ fields, field.2.isEvaluated = true := by
  rw [Value.isEvaluated, fieldsEvaluated_iff]

theorem Node.isEvaluated_iff {node : Node} :
    node.isEvaluated = true ↔ node.value.isEvaluated = true := by
  obtain ⟨value, annotations, source⟩ := node
  rw [Node.isEvaluated]

theorem Node.isEvaluated_of_isResolved {node : Node} (resolved : node.isResolved = true) :
    node.isEvaluated = true := by
  have whole := (Node.isResolved_iff.mp resolved).2
  induction node using Node.treeInduction with
  | list items annotations source ih =>
    have inside := allResolved_iff.mp whole
    exact Node.isEvaluated_iff.mpr (Value.isEvaluated_list.mpr fun item member =>
      ih item member (inside item member) (Node.isResolved_iff.mp (inside item member)).2)
  | map fields annotations source ih =>
    have inside := allFieldsResolved_iff.mp whole
    exact Node.isEvaluated_iff.mpr (Value.isEvaluated_map.mpr fun field member =>
      ih field member (inside field member) (Node.isResolved_iff.mp (inside field member)).2)
  | leaf value annotations source notList notMap =>
    cases value with
    | list items => exact absurd rfl (notList items)
    | map fields => exact absurd rfl (notMap fields)
    | expression e => cases whole
    | string text => exact whole
    | _ => rfl

theorem Node.expr?_of_evaluated {node : Node} (evaluated : node.isEvaluated = true) :
    node.expr? = none := by
  rw [Node.isEvaluated_iff] at evaluated
  obtain ⟨value, annotations, source⟩ := node
  cases value with
  | expression e => cases evaluated
  | string text =>
    rw [Node.expr?]
    cases shape : Embedded.classify text with
    | expression e =>
      have unread := Embedded.isUnread_iff_classify.mpr (.inl ⟨e, shape⟩)
      simp [Value.isEvaluated, unread] at evaluated
    | _ => simp only [shape]
  | _ => rfl

theorem Node.listDirective?_of_evaluated {entry : Node} (evaluated : entry.isEvaluated = true) :
    entry.listDirective? = none := by
  rw [Node.isEvaluated_iff] at evaluated
  unfold Node.listDirective?
  split
  · next key directive shape =>
    rw [shape, Value.isEvaluated_map] at evaluated
    split
    · exact Node.expr?_of_evaluated (evaluated _ List.mem_cons_self)
    · rfl
  · rfl

theorem Node.isEvaluated_of_field? {node child : Node} {key : String}
    (evaluated : node.isEvaluated = true) (found : node.field? key = some child) :
    child.isEvaluated = true := by
  rw [Node.isEvaluated_iff] at evaluated
  rw [Node.field?] at found
  split at found
  · next fields shape =>
    rw [shape, Value.isEvaluated_map] at evaluated
    exact evaluated _ (Fields.mem_of_find? found)
  · cases found

theorem Node.isEvaluated_of_strip? {temporary : Bool} {node result : Node}
    (evaluated : node.isEvaluated = true) (kept : node.strip? temporary = some result) :
    result.isEvaluated = true := by
  induction node using Node.treeInduction generalizing result with
  | list items annotations source ih =>
    have inside := Value.isEvaluated_list.mp (Node.isEvaluated_iff.mp evaluated)
    rw [Node.strip?] at kept
    split at kept
    · cases kept
    · cases kept
      rw [Value.strip, stripItems_eq_filterMap, Node.isEvaluated_iff, Value.isEvaluated_list]
      intro item member
      obtain ⟨before, known, left⟩ := List.mem_filterMap.mp member
      exact ih before known (inside before known) left
  | map fields annotations source ih =>
    have inside := Value.isEvaluated_map.mp (Node.isEvaluated_iff.mp evaluated)
    rw [Node.strip?] at kept
    split at kept
    · cases kept
    · cases kept
      rw [Value.strip, stripFields_eq_filterMap, Node.isEvaluated_iff, Value.isEvaluated_map]
      intro field member
      obtain ⟨before, known, left⟩ := List.mem_filterMap.mp member
      obtain ⟨child, remains, rfl⟩ := Option.map_eq_some_iff.mp left
      exact ih before known (inside before known) remains
  | leaf value annotations source notList notMap =>
    rw [Node.strip?] at kept
    split at kept
    · cases kept
    · cases kept
      cases value with
      | list items => exact absurd rfl (notList items)
      | map fields => exact absurd rfl (notMap fields)
      | _ => exact evaluated

/-! ### Flowing a resolved node -/

section

variable {engine : Engine} {deeper : Deeper} {below : FlowBelow} {b : Binding}
  {annotations : Annotations} {source : String}

/-- A map without expressions is replaced by its control, or flowed field by field. -/
theorem flowMap_of_evaluated {fields : Fields Node} (noState : b.document.state = none)
    (inside : ∀ field ∈ fields, field.2.isEvaluated = true) :
    flowMap engine deeper below ⟨.map fields, annotations, source⟩ fields b false =
      match runControl engine deeper (flowComplete engine below)
          ⟨.map fields, annotations, source⟩ fields b with
      | none => do
        let flowed ← flowFields below (b.inside annotations) false fields
        return some ⟨.map flowed, annotations.clearIssue, source⟩
      | some control => do
        match ← control.run with
        | .ok none => return none
        | .ok (some result) => below result b false
        | .error u => return some (Node.withDiagnostic ⟨.map fields, annotations, source⟩ u) := by
  have noDirective : ((Fields.find? fields directiveKey).bind fun written =>
      written.expr?.map fun e => (written, e)) = none := by
    cases found : Fields.find? fields directiveKey with
    | none => rfl
    | some written =>
      rw [Option.bind_some, Node.expr?_of_evaluated (inside _ (Fields.mem_of_find? found)),
        Option.map_none]
  unfold flowMap
  simp only [Bool.false_eq_true, if_false, noDirective, Option.filter_none, flowPlainMap, mapState?,
    Binding.stateValue?, noState, Option.bind_none, Option.map_none, ite_self, flowDirective,
    pure_bind, Bool.false_and]
  rfl

theorem runControl_eq_none_iff {resolve : Node → Binding → Eval Node} {node : Node}
    {fields : Fields Node} :
    runControl engine deeper resolve node fields b = none ↔ controlNames fields = [] := by
  unfold runControl
  split <;> simp_all

/-- A list without expressions is flowed entry by entry. -/
theorem flowList_of_evaluated {items : List Node}
    (inside : ∀ item ∈ items, item.isEvaluated = true) :
    flowList engine deeper below ⟨.list items, annotations, source⟩ items b false =
      (do
        let flowed ← flowEntries below (annotations.listKey engine.defaultKey) b false 0 items
        return some ⟨.list flowed, annotations.clearIssue, source⟩) := by
  have plain : firstDirective? items = none := firstDirective?_eq_none fun item member =>
    Node.listDirective?_of_evaluated (inside item member)
  rw [flowList, flowListDirective, plain]
  simp only [Bool.false_and, Bool.false_eq_true, if_false, pure_bind]
  rfl

/-- A value without expressions that is no container flows to itself. -/
theorem flowNode_leaf_of_evaluated {value : Value} {fuel : Nat}
    (notList : ∀ items, value ≠ .list items) (notMap : ∀ fields, value ≠ .map fields)
    (evaluated : value.isEvaluated = true) :
    flowNode engine deeper (fuel + 1) ⟨value, annotations, source⟩ b false =
      pure (some ⟨value, annotations, source⟩) := by
  cases value with
  | list items => exact absurd rfl (notList items)
  | map fields => exact absurd rfl (notMap fields)
  | expression e => cases evaluated
  | string text =>
    have read : Embedded.isUnread text = false := by simpa [Value.isEvaluated] using evaluated
    rw [flowNode]
    cases shape : Embedded.classify text with
    | expression e =>
      rw [Embedded.isUnread_iff_classify.mpr (.inl ⟨e, shape⟩)] at read
      cases read
    | broken problem =>
      rw [Embedded.isUnread_iff_classify.mpr (.inr ⟨problem, shape⟩)] at read
      cases read
    | literal | escaped text => simp [flowString, shape, flowLeaf]
  | _ => rw [flowNode]; rfl

/-- A pass gives a resolved node without controls back as it is, whatever the engine. -/
theorem flowNode_of_resolved {node : Node} (resolved : node.isResolved = true)
    (plain : node.carriesControl = false) {fuel : Nat} (enough : node.height < fuel)
    (noState : b.document.state = none) :
    flowNode engine deeper fuel node b false = pure (some node) := by
  obtain ⟨clear, whole⟩ := Node.isResolved_iff.mp resolved
  have evaluated := Node.isEvaluated_of_isResolved resolved
  rw [Node.isEvaluated_iff] at evaluated
  induction node using Node.treeInduction generalizing fuel b with
  | list items annotations source ih =>
    obtain ⟨fuel, rfl⟩ : ∃ n, fuel = n + 1 := ⟨fuel - 1, by omega⟩
    rw [Node.height, Value.height] at enough
    rw [Node.carriesControl, Value.carriesControl, itemsCarryControl_eq_any,
      List.any_eq_false] at plain
    have inside := allResolved_iff.mp whole
    have entries : ∀ key, flowEntries (flowNode engine deeper fuel) key b false 0 items =
        pure items := by
      refine fun key => flowEntries_eq_pure fun item member segment => ?_
      have lower := height_le_itemsHeight member
      have known := inside item member
      exact ih item member known (by simpa using plain item member) (by omega) noState (Node.isResolved_iff.mp known).1 (Node.isResolved_iff.mp known).2
        (Node.isEvaluated_iff.mp (Node.isEvaluated_of_isResolved known))
    rw [flowNode]
    simp only
    rw [flowList_of_evaluated (Value.isEvaluated_list.mp evaluated), entries, pure_bind]
    change annotations.clearIssue = annotations at clear
    rw [clear]
  | map fields annotations source ih =>
    obtain ⟨fuel, rfl⟩ : ∃ n, fuel = n + 1 := ⟨fuel - 1, by omega⟩
    rw [Node.height, Value.height] at enough
    rw [Node.carriesControl, Value.carriesControl, Bool.or_eq_false_iff, Bool.not_eq_false',
      List.isEmpty_iff, fieldsCarryControl_eq_any, List.any_eq_false] at plain
    have inside := allFieldsResolved_iff.mp whole
    have inner : (b.inside annotations).document.state = none := by
      rw [Binding.document_inside, noState]
    have flowed : flowFields (flowNode engine deeper fuel) (b.inside annotations) false fields =
        pure fields := by
      refine flowFields_eq_pure fun field member => ?_
      have lower := height_le_fieldsHeight member
      have known := inside field member
      by_cases directive : field.1 = directiveKey
      · exact .inl directive
      · refine .inr (ih field member known ?_ (by omega) inner
          (Node.isResolved_iff.mp known).1 (Node.isResolved_iff.mp known).2
          (Node.isEvaluated_iff.mp (Node.isEvaluated_of_isResolved known)))
        simpa [directive] using plain.2 field member
    rw [flowNode]
    simp only
    rw [flowMap_of_evaluated noState (Value.isEvaluated_map.mp evaluated),
      runControl_eq_none_iff.mpr plain.1]
    simp only
    rw [flowed, pure_bind]
    change annotations.clearIssue = annotations at clear
    rw [clear]
  | leaf value annotations source notList notMap =>
    obtain ⟨fuel, rfl⟩ : ∃ n, fuel = n + 1 := ⟨fuel - 1, by omega⟩
    exact flowNode_leaf_of_evaluated notList notMap evaluated

end

/-! ### Controls over nodes without expressions -/

/-- Nodes without expressions flow to nodes without, as documents of their own. -/
def Deeper.KeepsEvaluated (deeper : Deeper) : Prop :=
  ∀ node binding locals, node.isEvaluated = true →
    (deeper.flowNested node binding locals none).Returns fun r => r.value.isEvaluated = true

/-- What a control sees holds no expressions. -/
structure ControlContext.IsEvaluated (c : ControlContext) : Prop where
  value : c.value.isEvaluated = true
  fields : ∀ field ∈ c.fields, field.2.isEvaluated = true
  options : ∀ field ∈ c.options, field.2.isEvaluated = true

theorem ControlContext.IsEvaluated.option? {c : ControlContext} {name : String} {node : Node}
    (evaluated : c.IsEvaluated) (found : c.option? name = some node) : node.isEvaluated = true :=
  evaluated.options _ (Fields.mem_of_find? found)

/-- From nodes without expressions the control yields one without, if any. -/
def Control.KeepsEvaluated (control : Control) : Prop :=
  ∀ deeper resolve context, deeper.KeepsEvaluated → context.IsEvaluated →
    (control.run deeper resolve context).Returns fun result =>
      ∀ node ∈ result, node.isEvaluated = true

theorem conditional_keepsEvaluated : Control.conditional.KeepsEvaluated :=
  fun _ _ _ _ evaluated => .pure fun _ found => evaluated.option? found

theorem choose_returns {context : ControlContext} {selected : Option Node} {what : String}
    (evaluated : context.IsEvaluated) (known : ∀ node ∈ selected, node.isEvaluated = true) :
    (choose context selected what).Returns fun result =>
      ∀ node ∈ result, node.isEvaluated = true := by
  unfold choose
  split
  · next node found =>
    refine .pure ?_
    rintro _ ⟨⟩
    rcases Option.or_eq_some_iff.mp found with here | ⟨-, default⟩
    · exact known node here
    · exact evaluated.option? default
  · exact .fail

theorem selectCase_returns {deeper : Deeper} {resolve : Node → Binding → Eval Node}
    {context : ControlContext} {place : Binding} {index : Nat} {entries : List Node}
    (inside : ∀ entry ∈ entries, entry.isEvaluated = true) :
    (selectCase deeper resolve context place index entries).Returns fun result =>
      ∀ node ∈ result, node.isEvaluated = true := by
  induction entries generalizing index with
  | nil =>
    rw [selectCase]
    exact .pure (by simp)
  | cons entry rest ih =>
    rw [selectCase]
    split
    · next case value _ found =>
      refine Eval.Returns.any.bind fun case _ => Eval.Returns.any.bind fun matched _ => ?_
      split
      · refine .pure ?_
        rintro _ ⟨⟩
        exact Node.isEvaluated_of_field? (inside entry List.mem_cons_self) found
      · exact ih fun entry member => inside entry (List.mem_cons_of_mem _ member)
    · exact .fail

theorem switch_keepsEvaluated : Control.switch.KeepsEvaluated := by
  intro deeper resolve context below evaluated
  refine Eval.Returns.bind
    (P := fun result : Option Node => ∀ node ∈ result, node.isEvaluated = true)
    ?_ fun selected known => choose_returns evaluated known
  unfold switchCase
  split
  · exact .pure (by simp)
  · next fields shape =>
    obtain ⟨cases, given, isMap⟩ := Option.map_eq_some_iff.mp shape
    have inside := Node.isEvaluated_iff.mp (evaluated.option? given)
    rw [isMap, Value.isEvaluated_map] at inside
    split
    · exact .pure fun node found => inside _ (Fields.mem_of_find? found)
    · exact .fail
  · next entries shape =>
    obtain ⟨cases, given, isList⟩ := Option.map_eq_some_iff.mp shape
    have inside := Node.isEvaluated_iff.mp (evaluated.option? given)
    rw [isList, Value.isEvaluated_list] at inside
    exact selectCase_returns inside
  · exact .fail

theorem type_keepsEvaluated : Control.type.KeepsEvaluated := by
  intro deeper resolve context below evaluated
  refine Eval.Returns.bind
    (P := fun result : Option Node => ∀ node ∈ result, node.isEvaluated = true)
    ?_ fun selected known => choose_returns evaluated known
  unfold typeCase
  split
  · exact .pure (by simp)
  · next fields shape =>
    obtain ⟨cases, given, isMap⟩ := Option.map_eq_some_iff.mp shape
    have inside := Node.isEvaluated_iff.mp (evaluated.option? given)
    rw [isMap, Value.isEvaluated_map] at inside
    split
    · exact .fail
    · exact .pure fun node found => inside _ (Fields.mem_of_find? found)
  · exact .fail

theorem mergeSources_returns {node : Node} (evaluated : node.isEvaluated = true) :
    (mergeSources node).Returns fun sources => ∀ source ∈ sources, source.isEvaluated = true := by
  have inside := Node.isEvaluated_iff.mp evaluated
  unfold mergeSources
  split
  · exact .pure (by simp)
  · exact .pure (by simpa using evaluated)
  · next items shape =>
    rw [shape, Value.isEvaluated_list] at inside
    exact .pure inside
  · exact .fail

theorem spliceFields_returns {node : Node} (evaluated : node.isEvaluated = true) :
    (spliceFields node).Returns fun fields => ∀ field ∈ fields, field.2.isEvaluated = true := by
  have inside := Node.isEvaluated_iff.mp evaluated
  unfold spliceFields
  split
  · exact .pure (by simp)
  · next fields shape =>
    rw [shape, Value.isEvaluated_map] at inside
    exact .pure inside
  · exact .fail

theorem mem_foldl_override {layers : List (Fields Node)} {start : Fields Node}
    {field : String × Node} (member : field ∈ layers.foldl Fields.override start) :
    field ∈ start ∨ ∃ layer ∈ layers, field ∈ layer := by
  induction layers generalizing start with
  | nil => exact .inl member
  | cons layer rest ih =>
    rcases ih member with known | ⟨other, inRest, inside⟩
    · exact (Fields.mem_override known).imp_right fun inside => ⟨layer, List.mem_cons_self, inside⟩
    · exact .inr ⟨other, List.mem_cons_of_mem _ inRest, inside⟩

theorem merge_keepsEvaluated : Control.merge.KeepsEvaluated := by
  intro deeper resolve context below evaluated
  refine (mergeSources_returns evaluated.value).bind fun sources known => ?_
  refine (Eval.Returns.mapM fun source member => spliceFields_returns (known source member)).bind
    fun spliced inside => .pure ?_
  rintro _ ⟨⟩
  refine Node.isEvaluated_iff.mpr (Value.isEvaluated_map.mpr fun field member => ?_)
  rcases Fields.mem_override member with before | own
  · obtain ⟨layer, listed, held⟩ := (mem_foldl_override before).resolve_left List.not_mem_nil
    exact inside layer listed field held
  · exact evaluated.fields field own

theorem loopRow_returns {deeper : Deeper} (below : deeper.KeepsEvaluated) {body : Node}
    {mapkey : Option Node} {binding : Binding} {row : Fields Node}
    (evaluated : body.isEvaluated = true) :
    (loopRow deeper body mapkey binding row).Returns fun result => result.2.isEvaluated = true := by
  unfold loopRow
  refine (below body binding (some row) evaluated).bind fun r known => ?_
  simp only
  split
  · exact .pure known
  · refine Eval.Returns.any.bind fun key _ => ?_
    split
    · exact .pure known
    · exact .fail

theorem loopResults_returns {deeper : Deeper} (below : deeper.KeepsEvaluated) {body : Node}
    {mapkey : Option Node} {binding : Binding} {loops : List LoopVariable} {index : Nat}
    {rows : List (Fields Node)} (evaluated : body.isEvaluated = true) :
    (loopResults deeper body mapkey binding loops index rows).Returns fun results =>
      ∀ result ∈ results.1, result.2.isEvaluated = true := by
  induction rows generalizing index with
  | nil =>
    rw [loopResults]
    exact .pure (by simp)
  | cons row rest ih =>
    rw [loopResults]
    have observed : (loopRow deeper body mapkey binding row).outcome.Returns fun outcome =>
        ∀ result, outcome = .ok result → result.2.isEvaluated = true := by
      change Run.Yields (Except.ok <$> (loopRow deeper body mapkey binding row).run) _
      rw [map_eq_pure_bind]
      refine Run.Yields.bind (loopRow_returns below evaluated) fun outcome known => ?_
      refine Run.Yields.pure ?_
      rintro _ ⟨⟩
      exact known
    refine observed.bind fun outcome known => ih.bind fun others later => ?_
    obtain ⟨results, failures⟩ := others
    simp only
    split
    · next result => exact .pure (List.forall_mem_cons.mpr ⟨known result rfl, later⟩)
    · exact .pure later

theorem isEvaluated_loopNode {source : String} {keyed : Bool}
    {results : List (Option String × Value)}
    (inside : ∀ result ∈ results, result.2.isEvaluated = true) :
    (loopNode source keyed results).isEvaluated = true := by
  unfold loopNode
  split
  · refine Node.isEvaluated_iff.mpr (Value.isEvaluated_map.mpr fun field member => ?_)
    obtain ⟨result, known, left⟩ := List.mem_filterMap.mp (Fields.mem_ofList member)
    obtain ⟨key, -, rfl⟩ := Option.map_eq_some_iff.mp left
    exact Node.isEvaluated_iff.mpr (inside result known)
  · refine Node.isEvaluated_iff.mpr (Value.isEvaluated_list.mpr fun item member => ?_)
    obtain ⟨result, known, rfl⟩ := List.mem_map.mp member
    exact Node.isEvaluated_iff.mpr (inside result known)

theorem loop_keepsEvaluated : Control.loop.KeepsEvaluated := by
  intro deeper resolve context below evaluated
  refine Eval.Returns.any.bind fun loops _ => ?_
  split
  · exact .fail
  · next body given =>
    refine (loopResults_returns below (evaluated.option? given)).bind fun results inside => ?_
    obtain ⟨results, failures⟩ := results
    simp only
    split
    · refine .pure ?_
      rintro _ ⟨⟩
      exact isEvaluated_loopNode inside
    · exact .throw

/-- The controls that every engine has keep nodes without expressions. -/
theorem standard_keepEvaluated {name : String} {control : Control}
    (found : Fields.find? Control.standard name = some control) : control.KeepsEvaluated := by
  have member := Fields.mem_of_find? found
  simp only [Control.standard, List.mem_cons, List.not_mem_nil, or_false, Prod.mk.injEq] at member
  rcases member with ⟨-, rfl⟩ | ⟨-, rfl⟩ | ⟨-, rfl⟩ | ⟨-, rfl⟩ | ⟨-, rfl⟩
  · exact loop_keepsEvaluated
  · exact conditional_keepsEvaluated
  · exact merge_keepsEvaluated
  · exact switch_keepsEvaluated
  · exact type_keepsEvaluated

theorem completeInput_returns {defaultKey : String} {written : Node} {flowed : Option Node} :
    (completeInput defaultKey written flowed).Returns fun node => node.isEvaluated = true := by
  unfold completeInput
  split
  · exact .pure rfl
  · split
    · next resolved => exact .pure (Node.isEvaluated_of_isResolved resolved)
    · simp only
      split <;> exact .throw

/-- What a control needs complete is evaluated once it is. -/
theorem flowComplete_returns {engine : Engine} {below : FlowBelow} {node : Node} {b : Binding} :
    (flowComplete engine below node b).Returns fun node => node.isEvaluated = true :=
  Eval.Returns.any.bind fun _ _ => completeInput_returns

section

variable {fields : Fields Node} (inside : ∀ field ∈ fields, field.2.isEvaluated = true)

include inside

theorem controlOptions_returns {resolve : Node → Binding → Eval Node} {name : String} {b : Binding}
    {specs : List OptionSpec}
    (resolves : ∀ node place, (resolve node place).Returns fun node => node.isEvaluated = true) :
    (controlOptions resolve name fields b specs).Returns fun options =>
      ∀ field ∈ options, field.2.isEvaluated = true := by
  induction specs with
  | nil =>
    rw [controlOptions]
    exact .pure (by simp)
  | cons spec rest ih =>
    rw [controlOptions]
    simp only
    split
    · next option found =>
      have entry (node : Node) (known : node.isEvaluated = true) :
          (do return (spec.name, node) :: (← controlOptions resolve name fields b rest) :
            Eval (Fields Node)).Returns fun options =>
              ∀ field ∈ options, field.2.isEvaluated = true :=
        ih.bind fun options others => .pure (List.forall_mem_cons.mpr ⟨known, others⟩)
      split
      · rw [pure_bind]
        exact entry option (inside _ (Fields.mem_of_find? found))
      · exact (resolves option _).bind fun node known => entry node known
    · split
      · exact .fail
      · exact ih

theorem ownFields_returns {name : String} {specs : List OptionSpec} :
    (ownFields name specs fields).Returns fun own => ∀ field ∈ own, field.2.isEvaluated = true := by
  induction fields with
  | nil =>
    rw [ownFields]
    exact .pure (by simp)
  | cons field rest ih =>
    obtain ⟨key, child⟩ := field
    have first := inside _ List.mem_cons_self
    have others := ih fun field member => inside field (List.mem_cons_of_mem _ member)
    rw [ownFields]
    split
    · exact others.bind fun own known => .pure (List.forall_mem_cons.mpr ⟨first, known⟩)
    · split
      · exact others.bind fun own known => .pure (List.forall_mem_cons.mpr ⟨first, known⟩)
      · split
        · exact others
        · exact .fail

/-- The control of a map without expressions yields a node without expressions, if any. -/
theorem runControl_returns {engine : Engine} {deeper : Deeper} {below : FlowBelow} {node : Node}
    {b : Binding} {run : Eval (Option Node)} (controls : engine.controls = Control.standard)
    (nested : deeper.KeepsEvaluated)
    (carried : runControl engine deeper (flowComplete engine below) node fields b = some run) :
    run.Returns fun result => ∀ node ∈ result, node.isEvaluated = true := by
  unfold runControl at carried
  split at carried
  · cases carried
  · next first rest _ =>
    cases carried
    split
    · exact .fail
    · next name control known =>
      have registered : Fields.find? engine.controls name = some control := by
        have member : (name, control) ∈ (first :: rest).filterMap fun name =>
            (Fields.find? engine.controls name).map fun control => (name, control) :=
          known ▸ List.mem_cons_self
        obtain ⟨other, -, found⟩ := List.mem_filterMap.mp member
        obtain ⟨c, found, same⟩ := Option.map_eq_some_iff.mp found
        cases same
        exact found
      refine flowComplete_returns.bind fun value input => ?_
      refine (controlOptions_returns inside fun _ _ => flowComplete_returns).bind
        fun options given => ?_
      refine (ownFields_returns inside).bind fun own others => ?_
      exact standard_keepEvaluated (controls ▸ registered) deeper _ _ nested
        ⟨input, others, fun field member => given field (Fields.mem_ofList member)⟩
    · exact .fail

end

/-! ### Passes over nodes without expressions -/

section

variable {engine : Engine} {deeper : Deeper}

theorem flowFields_yields_evaluated {below : FlowBelow} {b : Binding} {fields : Fields Node}
    (inside : ∀ field ∈ fields, field.2.isEvaluated = true)
    (each : ∀ field ∈ fields, Run.Yields (below field.2 (b.child field.1) false) fun result =>
      ∀ m ∈ result, m.isEvaluated = true) :
    Run.Yields (flowFields below b false fields) fun flowed =>
      (∀ field ∈ flowed, field.2.isEvaluated = true) ∧
        ∀ field ∈ flowed, field.1 ∈ Fields.keys fields := by
  induction fields with
  | nil => exact .pure (by simp)
  | cons field rest ih =>
    obtain ⟨key, child⟩ := field
    have others := ih (fun field member => inside field (List.mem_cons_of_mem _ member))
      fun field member => each field (List.mem_cons_of_mem _ member)
    have entry (flowed : Option Node) (known : ∀ m ∈ flowed, m.isEvaluated = true) :
        Run.Yields (do
          let others ← flowFields below b false rest
          return (flowed.map fun child => (key, child)).toList ++ others) fun flowed =>
            (∀ field ∈ flowed, field.2.isEvaluated = true) ∧
              ∀ field ∈ flowed, field.1 ∈ Fields.keys ((key, child) :: rest) := by
      have own : ∀ field ∈ (flowed.map fun child => (key, child)).toList,
          field.1 = key ∧ field.2.isEvaluated = true := by
        intro field member
        obtain ⟨m, made, rfl⟩ := Option.map_eq_some_iff.mp (Option.mem_toList.mp member)
        exact ⟨rfl, known m made⟩
      refine others.bind fun later holds => .pure ⟨?_, ?_⟩
      · exact fun field member => (List.mem_append.mp member).elim
          (fun here => (own field here).2) (holds.1 field)
      · intro field member
        rcases List.mem_append.mp member with here | there
        · rw [(own field here).1]
          exact List.mem_cons_self
        · exact List.mem_cons_of_mem _ (holds.2 field there)
    rw [flowFields]
    split
    · rw [pure_bind]
      exact entry (some child) (by simpa using inside _ List.mem_cons_self)
    · exact (each _ List.mem_cons_self).bind entry

theorem flowEntries_yields_evaluated {below : FlowBelow} {key : String} {b : Binding}
    {items : List Node} {index : Nat} (inside : ∀ item ∈ items, item.isEvaluated = true)
    (each : ∀ item ∈ items, ∀ segment, Run.Yields (below item (b.entry segment key) false)
      fun result => ∀ m ∈ result, m.isEvaluated = true) :
    Run.Yields (flowEntries below key b false index items) fun flowed =>
      ∀ item ∈ flowed, item.isEvaluated = true := by
  induction items generalizing index with
  | nil => exact .pure (by simp)
  | cons entry rest ih =>
    have others := @ih (index + 1)
      (fun item member => inside item (List.mem_cons_of_mem _ member))
      fun item member => each item (List.mem_cons_of_mem _ member)
    have plain := Node.listDirective?_of_evaluated (inside entry List.mem_cons_self)
    rw [flowEntries, plain, if_neg (by simp)]
    refine (each entry List.mem_cons_self _).bind fun flowed known => ?_
    refine others.bind fun later holds => .pure fun item member => ?_
    rcases List.mem_append.mp member with here | there
    · exact known item (Option.mem_toList.mp here)
    · exact holds item there

/-- A pass over a node without expressions leaves none. -/
theorem flowNode_yields_evaluated (controls : engine.controls = Control.standard)
    (nested : deeper.KeepsEvaluated) {fuel : Nat} {node : Node} {b : Binding}
    (evaluated : node.isEvaluated = true) (alone : b.IsAlone) :
    Run.Yields (flowNode engine deeper fuel node b false) fun result =>
      ∀ m ∈ result, m.isEvaluated = true := by
  induction fuel generalizing node b with
  | zero => exact .exhausted
  | succ fuel ih =>
    obtain ⟨value, annotations, source⟩ := node
    rw [Node.isEvaluated_iff] at evaluated
    have container (value : Value) (a : Annotations) (known : value.isEvaluated = true) :
        ∀ m ∈ some (Node.mk value a source), m.isEvaluated = true := by
      rintro _ ⟨⟩
      exact Node.isEvaluated_iff.mpr known
    cases value with
    | list items =>
      have inside := Value.isEvaluated_list.mp evaluated
      rw [flowNode]
      simp only
      rw [flowList_of_evaluated inside]
      refine (flowEntries_yields_evaluated inside fun item member segment =>
        ih (inside item member) (alone.entry segment _)).bind fun flowed known => .pure ?_
      exact container (.list flowed) _ (Value.isEvaluated_list.mpr known)
    | map fields =>
      have inside := Value.isEvaluated_map.mp evaluated
      rw [flowNode]
      simp only
      rw [flowMap_of_evaluated alone.state inside]
      split
      · refine (flowFields_yields_evaluated inside fun field member =>
          ih (inside field member) ((alone.inside annotations).child _)).bind
            fun flowed known => .pure ?_
        exact container (.map flowed) _ (Value.isEvaluated_map.mpr known.1)
      · next control carried =>
        refine Run.Yields.bind (runControl_returns inside controls nested carried)
          fun outcome known => ?_
        split
        · exact .pure (by simp)
        · next result => exact ih (known _ rfl result rfl) alone
        · exact .pure (container (.map fields) _ evaluated)
    | _ =>
      rw [flowNode_leaf_of_evaluated (by simp) (by simp) evaluated]
      exact .pure (container _ _ evaluated)

end

/-! ### Documents nested in nodes without expressions -/

section

variable {engine : Engine} {deeper : Deeper} (controls : engine.controls = Control.standard)
  (nested : deeper.KeepsEvaluated) {s : Setting} (noStubs : s.stubs = []) (noState : s.state = none)
  (calm : s.overridable = false)

include controls nested noStubs noState calm

theorem pass_yields_evaluated {root : Node} (evaluated : root.isEvaluated = true) :
    Run.Yields (pass engine deeper s root) fun next => next.isEvaluated = true := by
  have alone : (s.rootBinding root).IsAlone := ⟨noStubs, noState⟩
  rw [pass, calm]
  refine (flowNode_yields_evaluated controls nested evaluated alone).bind
    fun flowed known => .pure ?_
  cases flowed with
  | none => rfl
  | some next => exact known next rfl

theorem settleWithin_yields_evaluated {passes : Nat} {root : Node}
    (evaluated : root.isEvaluated = true) :
    Run.Yields (settleWithin engine deeper s passes root) fun settled =>
      ∀ tree ∈ settled, tree.isEvaluated = true := by
  induction passes generalizing root with
  | zero => exact .pure (by simp)
  | succ passes ih =>
    rw [settleWithin]
    refine (pass_yields_evaluated controls nested noStubs noState calm evaluated).bind
      fun next known => ?_
    split
    · refine .pure ?_
      rintro _ ⟨⟩
      exact known
    · exact ih known

end

/-- A nested document without expressions has a value without. -/
theorem flowNested_returns {engine : Engine} {deeper : Deeper} {node : Node} {b : Binding}
    {locals : Option (Fields Node)} (controls : engine.controls = Control.standard)
    (nested : deeper.KeepsEvaluated) (evaluated : node.isEvaluated = true) :
    (flowNested engine deeper node b locals none).Returns fun r => r.value.isEvaluated = true := by
  unfold flowNested
  have nothing : (prepareNested engine deeper (b.document.id.nested b.path) [] b).Returns
      fun prepared => prepared = [] := by
    unfold prepareNested prepare
    rw [prepareFrom]
    exact .pure rfl
  refine nothing.bind fun prepared none => ?_
  subst none
  simp only
  have settles : Run.Yields (settle engine deeper
      { id := b.document.id.nested b.path, stubs := [], locals := locals.toList,
        outer := some b.scope, depth := b.depth + 1, overridable := false } node) fun settled =>
      ∀ tree ∈ settled, tree.isEvaluated = true :=
    settleWithin_yields_evaluated controls nested rfl rfl rfl evaluated
  refine (Eval.Returns.lift settles).bind fun settled known => ?_
  split
  · next tree =>
    unfold nestedValue
    simp only
    split
    · refine .pure ?_
      show Value.isEvaluated _ = true
      cases kept : tree.strip? true with
      | none => rfl
      | some left =>
        exact Node.isEvaluated_iff.mp (Node.isEvaluated_of_strip? (known tree rfl) kept)
    · exact .throw
  · exact .fail

theorem level_keepsEvaluated {engine : Engine} (controls : engine.controls = Control.standard)
    (fuel levels : Nat) : (level engine fuel levels).KeepsEvaluated := by
  induction levels with
  | zero => exact fun _ _ _ _ => .fail
  | succ levels ih => exact fun _ _ _ evaluated => flowNested_returns controls ih evaluated

/-! ### Controls do not stay -/

theorem controlNames_eq_nil_of_keys {fields flowed : Fields Node}
    (within : ∀ field ∈ flowed, field.1 ∈ Fields.keys fields) (plain : controlNames fields = []) :
    controlNames flowed = [] := by
  rw [controlNames, List.filterMap_eq_nil_iff] at plain ⊢
  intro key member
  obtain ⟨field, known, rfl⟩ := List.mem_map.mp member
  exact plain field.1 (within field known)

section

variable {engine : Engine} {deeper : Deeper} (controls : engine.controls = Control.standard)
  (registered : engine.Sound) (below : deeper.Sound) (nested : deeper.KeepsEvaluated)

include controls registered below nested

/-- A map that still has the key of a control after a pass has an issue that says why. -/
theorem flowNode_yields_issue {fuel : Nat} {node : Node} {b : Binding}
    (evaluated : node.isEvaluated = true) (sound : node.Sound) (alone : b.IsAlone)
    (place : b.Sound) :
    Run.Yields (flowNode engine deeper fuel node b false) fun result =>
      ∀ m ∈ result, ∀ fields, m.value = .map fields → controlNames fields ≠ [] →
        m.annotations.issue.isSome = true := by
  induction fuel generalizing node b with
  | zero => exact .exhausted
  | succ fuel ih =>
    obtain ⟨value, annotations, source⟩ := node
    have inner := Node.isEvaluated_iff.mp evaluated
    cases value with
    | list items =>
      rw [flowNode]
      simp only
      rw [flowList_of_evaluated (Value.isEvaluated_list.mp inner)]
      refine Run.Yields.bind (fun _ _ _ _ => trivial) fun flowed (_ : True) => .pure ?_
      rintro _ ⟨⟩ fields ⟨⟩
    | map fields =>
      have inside := Value.isEvaluated_map.mp inner
      rw [flowNode]
      simp only
      rw [flowMap_of_evaluated alone.state inside]
      split
      · next noControl =>
        rw [runControl_eq_none_iff] at noControl
        refine (flowFields_yields_evaluated inside fun field member =>
          flowNode_yields_evaluated controls nested (inside field member)
            ((alone.inside annotations).child _)).bind fun flowed known => .pure ?_
        rintro _ ⟨⟩ written ⟨⟩ carried
        exact absurd (controlNames_eq_nil_of_keys known.2 noControl) carried
      · next control carried =>
        have soundly := runControl_yields below
          (flowComplete_yields (flowNode_yields registered below fuel))
          (Value.sound_map.mp sound.value) place registered.controls sound ⟨fields, rfl⟩ carried
        have evaluates := runControl_returns inside controls nested carried
        refine Run.Yields.bind (Run.Yields.and soundly evaluates) fun outcome known => ?_
        split
        · exact .pure (by simp)
        · next result => exact ih (known.2 _ rfl result rfl) (known.1 result rfl) alone place
        · next u =>
          refine .pure ?_
          rintro _ ⟨⟩ written - -
          exact known.1
    | _ =>
      rw [flowNode_leaf_of_evaluated (by simp) (by simp) inner]
      refine .pure ?_
      rintro _ ⟨⟩ fields ⟨⟩

omit controls registered below nested in
/-- If the fields of a map are what they were, so is each of them. -/
theorem eq_of_flowFields {flow : FlowBelow} {b : Binding} {fields : Fields Node}
    {world world' : World} (yields : flowFields flow b false fields world = some (fields, world')) :
    ∀ field ∈ fields, field.1 ≠ directiveKey → ∃ before after,
      flow field.2 (b.child field.1) false before = some (some field.2, after) := by
  induction fields generalizing world with
  | nil => exact fun _ member => absurd member List.not_mem_nil
  | cons field rest ih =>
    obtain ⟨key, written⟩ := field
    obtain ⟨first, others, middle, start, later, equal⟩ := flowFields_cons yields
    have shorter := length_flowFields later
    cases first with
    | none =>
      have long := congrArg List.length equal
      simp only [Option.map_none, Option.toList_none, List.nil_append, List.length_cons] at long
      omega
    | some child =>
      obtain ⟨same, rfl⟩ := List.cons.inj equal
      cases same
      intro field member ordinary
      rcases List.mem_cons.mp member with rfl | inRest
      · rw [if_neg ordinary] at start
        exact ⟨world, middle, start⟩
      · exact ih later field inRest ordinary

omit controls registered below nested in
/-- If the entries of a list are what they were, so is each of them. -/
theorem eq_of_flowEntries {flow : FlowBelow} {b : Binding} {key : String} {index : Nat}
    {items : List Node} {world world' : World}
    (plain : ∀ item ∈ items, item.listDirective? = none)
    (yields : flowEntries flow key b false index items world = some (items, world')) :
    ∀ item ∈ items, ∃ segment before after,
      flow item (b.entry segment key) false before = some (some item, after) := by
  induction items generalizing world index with
  | nil => exact fun _ member => absurd member List.not_mem_nil
  | cons entry rest ih =>
    have others := fun item member => plain item (List.mem_cons_of_mem entry member)
    obtain ⟨first, flowedRest, middle, start, later, equal⟩ :=
      flowEntries_cons (plain entry List.mem_cons_self) yields
    have shorter := length_flowEntries others later
    cases first with
    | none =>
      have long := congrArg List.length equal
      simp only [Option.toList_none, List.nil_append, List.length_cons] at long
      omega
    | some child =>
      obtain ⟨rfl, rfl⟩ := List.cons.inj equal
      intro item member
      rcases List.mem_cons.mp member with rfl | inRest
      · exact ⟨_, world, middle, start⟩
      · exact ih others later item inRest

/-- A pass puts something else in the place of a resolved node that carries a control. -/
theorem flowNode_ne_of_carriesControl {node : Node} (resolved : node.isResolved = true)
    (carries : node.carriesControl = true) (sound : node.Sound) {fuel : Nat} {b : Binding}
    (alone : b.IsAlone) (place : b.Sound) {world world' : World} :
    flowNode engine deeper fuel node b false world ≠ some (some node, world') := by
  have evaluated := Node.isEvaluated_of_isResolved resolved
  have whole := (Node.isResolved_iff.mp resolved).2
  induction node using Node.treeInduction generalizing fuel b world world' with
  | list items annotations source ih =>
    intro flows
    obtain _ | fuel := fuel
    · cases flows
    have inside := allResolved_iff.mp whole
    rw [Node.carriesControl, Value.carriesControl, itemsCarryControl_eq_any,
      List.any_eq_true] at carries
    obtain ⟨item, member, carried⟩ := carries
    have known := inside item member
    rw [flowNode] at flows
    simp only at flows
    rw [flowList_of_evaluated (Value.isEvaluated_list.mp (Node.isEvaluated_iff.mp evaluated))]
      at flows
    obtain ⟨flowed, middle, entries, made⟩ := Run.eq_of_bind flows
    obtain rfl : flowed = items := by
      have same := Option.some.inj (Run.eq_of_pure made)
      exact Value.list.inj (congrArg Node.value same)
    obtain ⟨segment, before, after, same⟩ := eq_of_flowEntries
      (fun item member => Node.listDirective?_of_resolved (inside item member)) entries item member
    exact ih item member known carried (Value.sound_list.mp sound.value item member)
      (alone.entry _ _) (place.entry _ _) (Node.isEvaluated_of_isResolved known)
      (Node.isResolved_iff.mp known).2 same
  | map fields annotations source ih =>
    intro flows
    obtain _ | fuel := fuel
    · cases flows
    have inside := allFieldsResolved_iff.mp whole
    by_cases plain : controlNames fields = []
    · rw [Node.carriesControl, Value.carriesControl, plain, List.isEmpty_nil, Bool.not_true,
        Bool.false_or, fieldsCarryControl_eq_any, List.any_eq_true] at carries
      obtain ⟨field, member, carried⟩ := carries
      rw [Bool.and_eq_true, decide_eq_true_eq] at carried
      have known := inside field member
      rw [flowNode] at flows
      simp only at flows
      rw [flowMap_of_evaluated alone.state
        (Value.isEvaluated_map.mp (Node.isEvaluated_iff.mp evaluated)),
        runControl_eq_none_iff.mpr plain] at flows
      obtain ⟨flowed, middle, fieldwise, made⟩ := Run.eq_of_bind flows
      obtain rfl : flowed = fields := by
        have same := Option.some.inj (Run.eq_of_pure made)
        exact Value.map.inj (congrArg Node.value same)
      obtain ⟨before, after, same⟩ := eq_of_flowFields fieldwise field member carried.1
      exact ih field member known carried.2 (Value.sound_map.mp sound.value field member)
        ((alone.inside _).child _) ((Binding.Sound.inside place _).child _)
        (Node.isEvaluated_of_isResolved known) (Node.isResolved_iff.mp known).2 same
    · -- What is left of a control has an issue, and a resolved node has none.
      have issue := flowNode_yields_issue controls registered below nested evaluated sound alone
        place world world' _ flows _ rfl fields rfl plain
      have clear := (Node.isResolved_iff.mp resolved).1
      have none : annotations.issue = none := by
        change annotations.clearIssue = annotations at clear
        rw [← clear]
        rfl
      change annotations.issue.isSome = true at issue
      rw [none] at issue
      cases issue
  | leaf value annotations source notList notMap =>
    cases value with
    | list items => exact absurd rfl (notList items)
    | map fields => exact absurd rfl (notMap fields)
    | _ => cases carries

end

/-! ### References -/

/-- What a reference hands over is resolved. -/
theorem Reference.isResolved_of_resolve {r : Reference} {scope : Scope} {defaultKey : String}
    {node : Node} {value : Resolved} (finds : r.find scope defaultKey = .ok node)
    (resolves : r.resolve scope defaultKey false = .ok value) : node.isResolved = true := by
  rw [Reference.resolve, finds] at resolves
  change nodeValue r.render node false = .ok value at resolves
  rw [nodeValue] at resolves
  cases available : checkAvailable r.render node with
  | error u =>
    rw [available] at resolves
    cases resolves
  | ok _ =>
    rw [available] at resolves
    cases complete : node.isResolved with
    | true => rfl
    | false =>
      simp only [complete] at resolves
      cases resolves

/-- The trees that the passes over a document see. -/
inductive Snapshot (engine : Engine) (deeper : Deeper) (s : Setting) (root : Node) : Node → Prop
  | first : Snapshot engine deeper s root (s.seeded engine root)
  | next {tree next : Node} {world world' : World} (seen : Snapshot engine deeper s root tree)
      (passes : pass engine deeper s tree world = some (next, world')) :
      Snapshot engine deeper s root next

theorem Snapshot.sound {engine : Engine} {deeper : Deeper} {s : Setting} {root tree : Node}
    (registered : engine.Sound) (below : deeper.Sound) (shared : s.Sound) (sound : root.Sound)
    (seen : Snapshot engine deeper s root tree) : tree.Sound := by
  induction seen with
  | first => exact sound_seeded shared sound
  | next _ passes known => exact pass_yields registered below shared known _ _ _ passes

/-- What a reference hands over from a snapshot of a document without stubs and state is given back
unchanged by the pass over that snapshot, at its place, if and only if the pass comes upon no map
with the key of a control in it. -/
theorem flowNode_eq_iff_of_resolve (engine : Engine)
    (functions : engine.functions = Standard.functions)
    (controls : engine.controls = Control.standard) (source : String) (json : Json)
    (id : DocumentId) (overridable : Bool) (snapshot : Node)
    (seen : Snapshot engine (engine.below 0) { id, overridable } (Node.ofJson source json) snapshot)
    (r : Reference) (scope : Scope) (n : Node) (value : Resolved)
    (finds : r.find scope engine.defaultKey = .ok n)
    (resolves : r.resolve scope engine.defaultKey false = .ok value)
    (path : List String) (stands : snapshot.lookup? path engine.defaultKey = some n) (b : Binding)
    (own : b.scope = ⟨⟨id, snapshot, [], none⟩, [], b.path, none⟩) (fuel : Nat)
    (enough : n.height < fuel) (world : World) :
    (∃ world', flowNode engine (engine.below 0) fuel n b false world = some (some n, world')) ↔
      n.carriesControl = false := by
  have registered := Engine.sound_of_standard functions controls
  have below : (engine.below 0).Sound := level_sound registered _ _
  have nested : (engine.below 0).KeepsEvaluated := level_keepsEvaluated controls _ _
  have shared : Setting.Sound { id, overridable } :=
    ⟨trivial, by simp, by simp, by simp, by simp⟩
  have sound : snapshot.Sound := seen.sound registered below shared (sound_ofJson source json)
  have alone : b.IsAlone := ⟨by rw [Binding.document, own], by rw [Binding.document, own]⟩
  have place : b.Sound := by
    rw [Binding.Sound, own]
    exact Scope.sound_iff.mpr
      ⟨trivial, Document.sound_iff.mpr ⟨sound, by simp, by simp⟩, by simp, by simp⟩
  have resolved := Reference.isResolved_of_resolve finds resolves
  constructor
  · rintro ⟨world', same⟩
    rw [← Bool.not_eq_true]
    intro carries
    exact flowNode_ne_of_carriesControl controls registered below nested resolved carries
      (Node.Sound.lookup? sound stands) alone place same
  · intro plain
    rw [flowNode_of_resolved resolved plain enough alone.state]
    exact ⟨world, rfl⟩

/-- The place of a field of a document that is flowed alone. -/
def fieldPlace (document : Json) (key : String) : Binding :=
  ⟨⟨⟨⟨0, []⟩, Node.ofJson "template" document, [], none⟩, [], [key], none⟩, [key], [key], [none], 0⟩

/-- A document whose first field is a copy of its second. -/
def copyingDocument : Json :=
  .object [("copy", .string "(( db ))"),
    ("db", .object [("host", .string "a"), ("ports", .array [.int 1, .int 2])])]

/-- The map that is copied. -/
def copiedMap : Node :=
  .ofJson "template" (.object [("host", .string "a"), ("ports", .array [.int 1, .int 2])])

theorem flowNode_copiedMap :
    (Reference.relative ["db"]).resolve (fieldPlace copyingDocument "copy").scope "name" false =
      .ok (.ofValue copiedMap.value) ∧
    copiedMap.carriesControl = false ∧
    ∃ world', flowNode Engine.standard (Engine.standard.below 0) 3 copiedMap
      (fieldPlace copyingDocument "db") false {} = some (some copiedMap, world') := by
  refine ⟨rfl, by decide, ?_⟩
  exact (flowNode_eq_iff_of_resolve Engine.standard rfl rfl "template" copyingDocument ⟨0, []⟩ false
    (Node.ofJson "template" copyingDocument) .first (.relative ["db"])
    (fieldPlace copyingDocument "copy").scope copiedMap (.ofValue copiedMap.value) rfl rfl ["db"]
    rfl (fieldPlace copyingDocument "db") rfl 3 (by decide) {}).mpr (by decide)

/-- A document with a map that chooses a number, and a question about that map. -/
def choosingDocument : Json :=
  .object [("a", .object [("<<if", .bool true), ("<<then", .int 1)]),
    ("t", .string "(( type(a) ))")]

/-- The map that chooses a number. -/
def choosingMap : Node :=
  .ofJson "template" (.object [("<<if", .bool true), ("<<then", .int 1)])

/-- The number that a field has in the settled document, and the text that another one has. -/
def settledFields (document : Json) (number text : String) :
    Option (Option Int64 × Option String) := do
  let (settled, _) ← settle Engine.standard (Engine.standard.below 0) { id := ⟨0, []⟩ }
    (Node.ofJson "template" document) {}
  let tree ← settled
  let first ← tree.field? number
  let second ← tree.field? text
  return (first.value.asInt?, second.value.asString?)

/-- The reference hands the map over while the pass still puts the number in its place, and the
expression has computed with the map for good. -/
theorem flowNode_choosingMap :
    (Reference.relative ["a"]).resolve (fieldPlace choosingDocument "t").scope "name" false =
      .ok (.ofValue choosingMap.value) ∧
    choosingMap.carriesControl = true ∧
    (∀ world', flowNode Engine.standard (Engine.standard.below 0) 2 choosingMap
      (fieldPlace choosingDocument "a") false {} ≠ some (some choosingMap, world')) ∧
    settledFields choosingDocument "a" "t" = some (some 1, some "map") := by
  refine ⟨rfl, by decide, ?_, by decide +kernel⟩
  intro world' same
  have flows : flowNode Engine.standard (Engine.standard.below 0) 2 choosingMap
      (fieldPlace choosingDocument "a") false {} =
      some (some (.plain (.int 1) "template"), {}) := rfl
  have value := (Prod.mk.inj (Option.some.inj (flows.symm.trans same))).1
  cases congrArg Node.value (Option.some.inj value)

end Cascade
