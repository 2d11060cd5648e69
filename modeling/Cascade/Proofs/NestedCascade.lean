import Cascade.Proofs.FinalReferences
import Cascade.Proofs.PlainCascade
import Cascade.Proofs.ResolvedNodes

/-!
# Cascades inside documents

`merge(template, stub...)` flows its template against prepared stubs as a cascade does, as a
document of its own and some levels deeper. Where nothing is left to evaluate, a pass asks its place
for stub values and for nothing else: neither the identity of the document nor the names and levels
around it matter. So both flows are the same, and all that a cascade does besides is to add flagged
fields of stubs to its template before it starts.

## Main definitions

* `Node.isClearData`: data without diagnostics, whatever else is noted on it.
* `Binding.Agrees`: two places with the same stub values at them and below.

## Main statements

* `flowNode_agrees`, `settleWithin_agrees`: data flows alike at places that agree.
* `evaluate_merge_iff_cascade`: a merge has the value of the cascade whose added fields it has.
-/

namespace Cascade

/-! ### Data without diagnostics -/

/-- There is nothing to evaluate in the tree, and nothing in it failed. -/
def Node.isClearData (node : Node) : Bool := node.isDataWith Annotations.isClear

theorem Node.isClearData_iff {value : Value} {annotations : Annotations} {source : String} :
    (Node.mk value annotations source).isClearData = true ↔
      annotations.isClear = true ∧ value.isDataWith Annotations.isClear = true := by
  rw [isClearData, isDataWith, Bool.and_eq_true]

theorem Node.isClearData_list {items : List Node} {annotations : Annotations} {source : String} :
    (Node.mk (.list items) annotations source).isClearData = true ↔
      annotations.isClear = true ∧ ∀ item ∈ items, item.isClearData = true := by
  rw [isClearData_iff, Value.isDataWith, itemsAreData_iff]
  rfl

theorem Node.isClearData_map {fields : Fields Node} {annotations : Annotations} {source : String} :
    (Node.mk (.map fields) annotations source).isClearData = true ↔
      annotations.isClear = true ∧
        ∀ field ∈ fields, controlSuffix? field.1 = none ∧ field.2.isClearData = true := by
  rw [isClearData_iff, Value.isDataWith, fieldsAreData_iff]
  rfl

theorem Annotations.clearIssue_of_isClear {a : Annotations} (clear : a.isClear = true) :
    a.clearIssue = a := by
  simp only [isClear, Bool.and_eq_true, Bool.not_eq_true', Option.isNone_iff_eq_none] at clear
  obtain ⟨⟨noError, notFailed⟩, noIssue⟩ := clear
  cases a
  simp_all [clearIssue]

theorem Value.isUnread_of_data {allowed : Annotations → Bool} {text : String}
    (data : (Value.string text).isDataWith allowed = true) : Embedded.isUnread text = false := by
  rw [Value.isDataWith, Option.isNone_iff_eq_none] at data
  rw [← Bool.not_eq_true, Embedded.isUnread_iff, data]
  simp

theorem Node.isResolved_of_clearData {node : Node} (data : node.isClearData = true) :
    node.isResolved = true := by
  induction node using Node.treeInduction with
  | list items annotations source ih =>
    rw [isClearData_list] at data
    exact isResolved_iff.mpr ⟨Annotations.clearIssue_of_isClear data.1,
      allResolved_iff.mpr fun item member => ih item member (data.2 item member)⟩
  | map fields annotations source ih =>
    rw [isClearData_map] at data
    exact isResolved_iff.mpr ⟨Annotations.clearIssue_of_isClear data.1,
      allFieldsResolved_iff.mpr fun field member => ih field member (data.2 field member).2⟩
  | leaf value annotations source notList notMap =>
    rw [isClearData_iff] at data
    refine isResolved_iff.mpr ⟨Annotations.clearIssue_of_isClear data.1, ?_⟩
    cases value with
    | list items => exact absurd rfl (notList items)
    | map fields => exact absurd rfl (notMap fields)
    | string text => simp [valueResolved, Value.isUnread_of_data data.2]
    | expression e => cases data.2
    | _ => rfl

theorem Node.carriesControl_of_clearData {node : Node} (data : node.isClearData = true) :
    node.carriesControl = false := by
  induction node using Node.treeInduction with
  | list items annotations source ih =>
    rw [isClearData_list] at data
    rw [carriesControl, Value.carriesControl, itemsCarryControl_eq_any, List.any_eq_false]
    intro item member
    simp [ih item member (data.2 item member)]
  | map fields annotations source ih =>
    rw [isClearData_map] at data
    rw [carriesControl, Value.carriesControl, fieldsCarryControl_eq_any,
      controlNames_of_data fun field member => (data.2 field member).1, List.isEmpty_nil,
      Bool.not_true, Bool.false_or, List.any_eq_false]
    intro field member
    simp [ih field member (data.2 field member).2]
  | leaf value annotations source notList notMap =>
    cases value with
    | list items => exact absurd rfl (notList items)
    | map fields => exact absurd rfl (notMap fields)
    | _ => rfl

theorem Node.isReported_of_clearData {node : Node} (data : node.isClearData = true) :
    node.isReported = false := by
  have silent {value : Value} {a : Annotations} {source : String} (clear : a.isClear = true)
      (evaluated : ∀ e, value ≠ .expression e) :
      (Report.expression? ⟨value, a, source⟩).isSome = false := by
    simp only [Annotations.isClear, Bool.and_eq_true, Bool.not_eq_true',
      Option.isNone_iff_eq_none] at clear
    cases value <;> simp_all [Report.expression?]
  induction node using Node.treeInduction with
  | list items annotations source ih =>
    rw [isClearData_list] at data
    rw [isReported, silent data.1 (by simp), Value.isReported, itemsReported_eq_any, Bool.false_or,
      List.any_eq_false]
    intro item member
    simp [ih item member (data.2 item member)]
  | map fields annotations source ih =>
    rw [isClearData_map] at data
    rw [isReported, silent data.1 (by simp), Value.isReported, fieldsReported_eq_any,
      Bool.false_or, List.any_eq_false]
    intro field member
    simp [ih field member (data.2 field member).2]
  | leaf value annotations source notList notMap =>
    rw [isClearData_iff] at data
    cases value with
    | list items => exact absurd rfl (notList items)
    | map fields => exact absurd rfl (notMap fields)
    | expression e => cases data.2
    | _ => rw [isReported, silent data.1 (by simp)]; rfl

theorem collect_of_clearData {tree : Node} {defaultKey : String} (data : tree.isClearData = true) :
    Report.collect tree defaultKey = {} := by
  have empty : (Report.collect tree defaultKey).isEmpty = true :=
    isEmpty_collect_iff.mpr (Node.isReported_of_clearData data)
  cases collected : Report.collect tree defaultKey with
  | mk entries =>
    rw [collected, Report.isEmpty, List.isEmpty_iff] at empty
    exact congrArg Report.mk empty

theorem Node.isClearData_of_strip? {temporary : Bool} {node result : Node}
    (data : node.isClearData = true) (kept : node.strip? temporary = some result) :
    result.isClearData = true := by
  induction node using Node.treeInduction generalizing result with
  | list items annotations source ih =>
    rw [isClearData_list] at data
    rw [Node.strip?] at kept
    split at kept
    · cases kept
    · cases kept
      rw [Value.strip, stripItems_eq_filterMap, isClearData_list]
      refine ⟨data.1, fun item member => ?_⟩
      obtain ⟨before, known, left⟩ := List.mem_filterMap.mp member
      exact ih before known (data.2 before known) left
  | map fields annotations source ih =>
    rw [isClearData_map] at data
    rw [Node.strip?] at kept
    split at kept
    · cases kept
    · cases kept
      rw [Value.strip, stripFields_eq_filterMap, isClearData_map]
      refine ⟨data.1, fun field member => ?_⟩
      obtain ⟨before, known, left⟩ := List.mem_filterMap.mp member
      obtain ⟨child, remains, rfl⟩ := Option.map_eq_some_iff.mp left
      exact ⟨(data.2 before known).1, ih before known (data.2 before known).2 remains⟩
  | leaf value annotations source notList notMap =>
    rw [Node.strip?] at kept
    split at kept
    · cases kept
    · cases kept
      cases value with
      | list items => exact absurd rfl (notList items)
      | map fields => exact absurd rfl (notMap fields)
      | _ => exact data

theorem Node.isClearData_of_stepBy? {node next : Node} {segment key : String}
    (data : node.isClearData = true) (step : node.stepBy? segment key = some next) :
    next.isClearData = true := by
  obtain ⟨value, annotations, source⟩ := node
  unfold stepBy? at step
  split at step
  · next fields shape =>
    obtain rfl : value = .map fields := shape
    exact ((isClearData_map.mp data).2 _ (Fields.mem_of_find? step)).2
  · next items shape =>
    obtain rfl : value = .list items := shape
    refine (isClearData_list.mp data).2 next ?_
    split at step
    · obtain ⟨position, -, found⟩ := Option.bind_eq_some_iff.mp step
      exact List.mem_of_getElem? found
    · exact List.mem_of_find?_eq_some step
  · cases step

theorem Node.isClearData_of_lookupKeyed? {root node : Node} {defaultKey : String}
    {path : List String} {keys : List (Option String)} (data : root.isClearData = true)
    (found : root.lookupKeyed? defaultKey path keys = some node) : node.isClearData = true := by
  induction path generalizing root keys with
  | nil =>
    cases found
    exact data
  | cons segment rest ih =>
    rw [Node.lookupKeyed?] at found
    split at found
    · next next step => exact ih (isClearData_of_stepBy? data step) found
    · cases found

/-- The override of a node by data is data. -/
theorem Node.isClearData_overridden {node stub : Node} {temporary : Bool}
    (data : stub.isClearData = true) : (node.overridden stub temporary).isClearData = true := by
  obtain ⟨value, annotations, source⟩ := stub
  rw [isClearData_iff] at data
  exact isClearData_iff.mpr ⟨rfl, data.2⟩

/-! ### Places that agree -/

/-- Two places ask their stubs for the same values, all of them data, at every path below the root,
and have no state document to ask. -/
structure Binding.Agrees (defaultKey : String) (b b' : Binding) : Prop where
  path : b.stubPath = b'.stubPath
  keys : b.stubKeys = b'.stubKeys
  values : ∀ path keys, path ≠ [] →
    b.document.stubs.filterMap (·.lookupKeyed? defaultKey path keys) =
      b'.document.stubs.filterMap (·.lookupKeyed? defaultKey path keys)
  data : ∀ stub ∈ b.document.stubs, stub.isClearData = true
  noState : b.document.state = none
  noState' : b'.document.state = none

namespace Binding.Agrees

variable {defaultKey : String} {b b' : Binding}

theorem child (agrees : b.Agrees defaultKey b') (segment : String) :
    (b.child segment).Agrees defaultKey (b'.child segment) where
  path := congrArg (· ++ [segment]) agrees.path
  keys := congrArg (· ++ [none]) agrees.keys
  values := agrees.values
  data := agrees.data
  noState := agrees.noState
  noState' := agrees.noState'

theorem entry (agrees : b.Agrees defaultKey b') (segment key : String) :
    (b.entry segment key).Agrees defaultKey (b'.entry segment key) where
  path := congrArg (· ++ [segment]) agrees.path
  keys := congrArg (· ++ [some key]) agrees.keys
  values := agrees.values
  data := agrees.data
  noState := agrees.noState
  noState' := agrees.noState'

theorem inside (agrees : b.Agrees defaultKey b') (a : Annotations) :
    (b.inside a).Agrees defaultKey (b'.inside a) := by
  obtain ⟨path, keys, values, data, noState, noState'⟩ := agrees
  unfold Binding.inside
  cases a.redirectPath with
  | none => exact ⟨path, keys, values, data, noState, noState'⟩
  | some other => exact ⟨rfl, rfl, values, data, noState, noState'⟩

theorem overrideValue? (agrees : b.Agrees defaultKey b') (below : b.stubPath ≠ []) :
    b.overrideValue? defaultKey = b'.overrideValue? defaultKey := by
  rw [Binding.overrideValue?, Binding.overrideValue?, agrees.values _ _ below, agrees.path,
    agrees.keys]

theorem isClearData_overrideValue? (agrees : b.Agrees defaultKey b') {node : Node}
    (found : b.overrideValue? defaultKey = some node) : node.isClearData = true := by
  obtain ⟨stub, member, inStub⟩ := List.mem_filterMap.mp (List.mem_of_find?_eq_some found)
  exact Node.isClearData_of_lookupKeyed? (agrees.data stub member) inStub

theorem stubOverride? (agrees : b.Agrees defaultKey b') (below : b.stubPath ≠ []) (node : Node) :
    stubOverride? defaultKey node b = stubOverride? defaultKey node b' := by
  rw [Cascade.stubOverride?, Cascade.stubOverride?, agrees.overrideValue? below]

theorem mapOverride? (agrees : b.Agrees defaultKey b') (below : b.stubPath ≠ []) (node : Node) :
    mapOverride? defaultKey node b = mapOverride? defaultKey node b' := by
  rw [Cascade.mapOverride?, Cascade.mapOverride?, agrees.overrideValue? below]

theorem isClearData_stubOverride? (agrees : b.Agrees defaultKey b') {node result : Node}
    (found : Cascade.stubOverride? defaultKey node b = some result) :
    result.isClearData = true := by
  rw [Cascade.stubOverride?] at found
  split at found
  · cases found
  · obtain ⟨stub, known, rfl⟩ := Option.map_eq_some_iff.mp found
    exact Node.isClearData_overridden (agrees.isClearData_overrideValue? known)

theorem isClearData_mapOverride? (agrees : b.Agrees defaultKey b') {node result : Node}
    (found : Cascade.mapOverride? defaultKey node b = some result) :
    result.isClearData = true := by
  rw [Cascade.mapOverride?] at found
  split at found
  · cases found
  · split at found
    · cases found
    · cases found
    · next stub _ known =>
      cases found
      exact Node.isClearData_overridden (agrees.isClearData_overrideValue? known)

end Binding.Agrees

theorem stubPath_child_ne_nil (b : Binding) (segment : String) :
    (b.child segment).stubPath ≠ [] := by
  simp [Binding.child]

theorem stubPath_entry_ne_nil (b : Binding) (segment key : String) :
    (b.entry segment key).stubPath ≠ [] := by
  simp [Binding.entry, Binding.child]

/-! ### Seeding at places that agree -/

section

variable {defaultKey : String} {b b' : Binding}

theorem seedFields_agrees {fields : Fields Node}
    (ordinary : ∀ field ∈ fields, controlSuffix? field.1 = none)
    (each : ∀ field ∈ fields,
      seedOverrides defaultKey field.2 (b.child field.1) =
        seedOverrides defaultKey field.2 (b'.child field.1) ∧
      (seedOverrides defaultKey field.2 (b.child field.1)).isClearData = true) :
    seedFields defaultKey fields b = seedFields defaultKey fields b' ∧
      ∀ field ∈ seedFields defaultKey fields b,
        controlSuffix? field.1 = none ∧ field.2.isClearData = true := by
  rw [seedFields_eq_map, seedFields_eq_map]
  have seeded (field : String × Node) (member : field ∈ fields) :
      (if field.1 = directiveKey then field.2
        else seedOverrides defaultKey field.2 (b.child field.1)) =
      seedOverrides defaultKey field.2 (b.child field.1) :=
    if_neg (ne_directiveKey (ordinary field member))
  constructor
  · refine List.map_congr_left fun field member => ?_
    rw [(each field member).1]
  · intro field member
    obtain ⟨before, known, rfl⟩ := List.mem_map.mp member
    simp only [seeded before known]
    exact ⟨ordinary before known, (each before known).2⟩

theorem seedItems_agrees {items : List Node} {key : String} (index : Nat)
    (each : ∀ item ∈ items, ∀ segment,
      seedOverrides defaultKey item (b.entry segment key) =
        seedOverrides defaultKey item (b'.entry segment key) ∧
      (seedOverrides defaultKey item (b.entry segment key)).isClearData = true) :
    seedItems defaultKey key index items b = seedItems defaultKey key index items b' ∧
      ∀ item ∈ seedItems defaultKey key index items b, item.isClearData = true := by
  induction items generalizing index with
  | nil =>
    rw [seedItems, seedItems]
    simp
  | cons item rest ih =>
    have first := each item List.mem_cons_self (item.entrySegment index key)
    have others := ih (index + 1) fun item member => each item (List.mem_cons_of_mem _ member)
    rw [seedItems, seedItems, first.1, others.1]
    exact ⟨rfl, List.forall_mem_cons.mpr ⟨first.1 ▸ first.2, others.1 ▸ others.2⟩⟩

/-- Data is seeded with the same overrides at places that agree, and stays data. -/
theorem seedOverrides_agrees {node : Node} (data : node.isClearData = true)
    (agrees : b.Agrees defaultKey b') (below : b.stubPath ≠ []) :
    seedOverrides defaultKey node b = seedOverrides defaultKey node b' ∧
      (seedOverrides defaultKey node b).isClearData = true := by
  induction node using Node.treeInduction generalizing b b' with
  | list items annotations source ih =>
    have inside := Node.isClearData_list.mp data
    have entries := seedItems_agrees 0 fun item member segment =>
      ih item member (inside.2 item member)
        (agrees.entry segment (annotations.listKey defaultKey)) (stubPath_entry_ne_nil b segment _)
    rw [seedOverrides, seedOverrides]
    split
    · exact ⟨rfl, data⟩
    · simp only [listDirective?_any_of_data inside.2, Bool.false_eq_true, if_false,
        ← agrees.stubOverride? below]
      cases taken : stubOverride? defaultKey ⟨.list items, annotations, source⟩ b with
      | some result => exact ⟨rfl, agrees.isClearData_stubOverride? taken⟩
      | none =>
        simp only [← entries.1]
        exact ⟨trivial, Node.isClearData_list.mpr ⟨inside.1, entries.2⟩⟩
  | map fields annotations source ih =>
    have inside := Node.isClearData_map.mp data
    have ordinary := fun field member => (inside.2 field member).1
    have seeded := seedFields_agrees ordinary fun field member =>
      ih field member (inside.2 field member).2 (agrees.child field.1)
        (stubPath_child_ne_nil b field.1)
    rw [seedOverrides, seedOverrides]
    split
    · exact ⟨rfl, data⟩
    · simp only [← agrees.mapOverride? below, shapeIsOpen_of_data ordinary, Bool.false_eq_true,
        if_false]
      cases taken : mapOverride? defaultKey ⟨.map fields, annotations, source⟩ b with
      | some result => exact ⟨rfl, agrees.isClearData_mapOverride? taken⟩
      | none =>
        simp only [← seeded.1]
        exact ⟨trivial, Node.isClearData_map.mpr ⟨inside.1, seeded.2⟩⟩
  | leaf value annotations source notList notMap =>
    have noExpression := Node.expr?_of_data data
    have kept : ∀ place : Binding, ((stubOverride? defaultKey ⟨value, annotations, source⟩
        place).getD ⟨value, annotations, source⟩) = seedOverrides defaultKey
          ⟨value, annotations, source⟩ place := by
      intro place
      by_cases blocked : annotations.blocksOverride = true
      · cases value <;> simp [seedOverrides, stubOverride?, blocked]
      · cases value with
        | list items => exact absurd rfl (notList items)
        | map fields => exact absurd rfl (notMap fields)
        | _ => simp only [seedOverrides, blocked, noExpression]; rfl
    rw [← kept b, ← kept b', ← agrees.stubOverride? below]
    refine ⟨rfl, ?_⟩
    cases taken : stubOverride? defaultKey ⟨value, annotations, source⟩ b with
    | none => exact data
    | some result => exact agrees.isClearData_stubOverride? taken

end

/-! ### Flowing at places that agree -/

section

variable {engine : Engine} {deeper deeper' : Deeper} {b b' : Binding} {overridable : Bool}

theorem flowFields_agrees {below below' : FlowBelow} {fields : Fields Node}
    (ordinary : ∀ field ∈ fields, controlSuffix? field.1 = none)
    (each : ∀ field ∈ fields, ∃ m : Node, m.isClearData = true ∧
      below field.2 (b.child field.1) overridable = pure (some m) ∧
      below' field.2 (b'.child field.1) overridable = pure (some m)) :
    ∃ flowed : Fields Node,
      (∀ field ∈ flowed, controlSuffix? field.1 = none ∧ field.2.isClearData = true) ∧
      flowFields below b overridable fields = pure flowed ∧
      flowFields below' b' overridable fields = pure flowed := by
  induction fields with
  | nil => exact ⟨[], by simp, rfl, rfl⟩
  | cons field rest ih =>
    obtain ⟨key, child⟩ := field
    have own := ordinary _ List.mem_cons_self
    obtain ⟨m, data, here, there⟩ := each _ List.mem_cons_self
    obtain ⟨others, known, rest, rest'⟩ := ih
      (fun field member => ordinary field (List.mem_cons_of_mem _ member))
      fun field member => each field (List.mem_cons_of_mem _ member)
    refine ⟨(key, m) :: others, List.forall_mem_cons.mpr ⟨⟨own, data⟩, known⟩, ?_, ?_⟩
    · simp [flowFields, ne_directiveKey own, here, rest]
    · simp [flowFields, ne_directiveKey own, there, rest']

theorem flowEntries_agrees {below below' : FlowBelow} {key : String} {items : List Node}
    (index : Nat) (plain : ∀ item ∈ items, item.listDirective? = none)
    (each : ∀ item ∈ items, ∀ segment, ∃ m : Node, m.isClearData = true ∧
      below item (b.entry segment key) overridable = pure (some m) ∧
      below' item (b'.entry segment key) overridable = pure (some m)) :
    ∃ flowed : List Node, (∀ item ∈ flowed, item.isClearData = true) ∧
      flowEntries below key b overridable index items = pure flowed ∧
      flowEntries below' key b' overridable index items = pure flowed := by
  induction items generalizing index with
  | nil => exact ⟨[], by simp, rfl, rfl⟩
  | cons entry rest ih =>
    have own := plain _ List.mem_cons_self
    obtain ⟨m, data, here, there⟩ := each _ List.mem_cons_self (entry.entrySegment index key)
    obtain ⟨others, known, rest, rest'⟩ := ih (index + 1)
      (fun item member => plain item (List.mem_cons_of_mem _ member))
      fun item member => each item (List.mem_cons_of_mem _ member)
    refine ⟨m :: others, List.forall_mem_cons.mpr ⟨data, known⟩, ?_, ?_⟩
    · simp [flowEntries, own, here, rest]
    · simp [flowEntries, own, there, rest']

/-- A map of data that is not overridden as a whole is flowed field by field. -/
theorem flowMap_of_clearData {below : FlowBelow} {fields : Fields Node} {annotations : Annotations}
    {source : String} (data : (Node.mk (.map fields) annotations source).isClearData = true)
    (noState : b.document.state = none)
    (kept : overridable = true →
      mapOverride? engine.defaultKey ⟨.map fields, annotations, source⟩ b = none) :
    flowMap engine deeper below ⟨.map fields, annotations, source⟩ fields b overridable =
      (do
        let flowed ← flowFields below (b.inside annotations)
          (overridable && !annotations.blocksOverride) fields
        return some ⟨.map flowed, annotations, source⟩) := by
  obtain ⟨clear, inside⟩ := Node.isClearData_map.mp data
  have ordinary := fun field member => (inside field member).1
  have noDirective : ((Fields.find? fields directiveKey).bind fun written =>
      written.expr?.map fun e => (written, e)) = none := by
    rw [find?_directiveKey_of_data ordinary, Option.bind_none]
  rw [flowMap_of_kept kept noState noDirective (by simp) (controlNames_of_data ordinary),
    flowDirective, pure_bind]
  simp only [Annotations.clearIssue_of_isClear clear]

/-- A list of data that is not overridden as a whole is flowed entry by entry. -/
theorem flowList_of_clearData {below : FlowBelow} {items : List Node} {annotations : Annotations}
    {source : String} (data : (Node.mk (.list items) annotations source).isClearData = true)
    (kept : (if overridable && !annotations.expanded then
      stubOverride? engine.defaultKey ⟨.list items, annotations, source⟩ b else none) = none) :
    flowList engine deeper below ⟨.list items, annotations, source⟩ items b overridable =
      (do
        let flowed ← flowEntries below (annotations.listKey engine.defaultKey) b
          (overridable && !annotations.blocksOverride) 0 items
        return some ⟨.list flowed, annotations, source⟩) := by
  obtain ⟨clear, inside⟩ := Node.isClearData_list.mp data
  rw [flowList, flowListDirective, firstDirective?_of_data inside]
  simp only [kept, pure_bind, Annotations.clearIssue_of_isClear clear]

/-- Data flows to the same data at places that agree, at any level. -/
theorem flowNode_agrees {node : Node} (data : node.isClearData = true) {fuel : Nat}
    (enough : node.height < fuel) (agrees : b.Agrees engine.defaultKey b')
    (below : b.stubPath ≠ []) :
    ∃ m : Node, m.isClearData = true ∧
      flowNode engine deeper fuel node b overridable = pure (some m) ∧
      flowNode engine deeper' fuel node b' overridable = pure (some m) := by
  induction node using Node.treeInduction generalizing fuel b b' overridable with
  | list items annotations source ih =>
    obtain ⟨fuel, rfl⟩ : ∃ n, fuel = n + 1 := ⟨fuel - 1, by omega⟩
    rw [Node.height, Value.height] at enough
    have inside := Node.isClearData_list.mp data
    have same : (if overridable && !annotations.expanded then
          stubOverride? engine.defaultKey ⟨.list items, annotations, source⟩ b else none) =
        if overridable && !annotations.expanded then
          stubOverride? engine.defaultKey ⟨.list items, annotations, source⟩ b' else none := by
      rw [agrees.stubOverride? below]
    cases taken : if overridable && !annotations.expanded then
        stubOverride? engine.defaultKey ⟨.list items, annotations, source⟩ b else none with
    | some result =>
      have overridden : result.isClearData = true := by
        split at taken
        · exact agrees.isClearData_stubOverride? taken
        · cases taken
      refine ⟨result, overridden, ?_, ?_⟩
      · rw [flowNode]
        simp only [flowList, flowListDirective, firstDirective?_of_data inside.2, taken, pure_bind]
      · rw [flowNode]
        simp only [flowList, flowListDirective, firstDirective?_of_data inside.2, ← same, taken,
          pure_bind]
    | none =>
      have each : ∀ item ∈ items, ∀ segment, ∃ m : Node, m.isClearData = true ∧
          flowNode engine deeper fuel item
            (b.entry segment (annotations.listKey engine.defaultKey))
            (overridable && !annotations.blocksOverride) = pure (some m) ∧
          flowNode engine deeper' fuel item
            (b'.entry segment (annotations.listKey engine.defaultKey))
            (overridable && !annotations.blocksOverride) = pure (some m) := by
        intro item member segment
        have lower := height_le_itemsHeight member
        exact ih item member (inside.2 item member) (by omega) (agrees.entry segment _)
          (stubPath_entry_ne_nil b segment _)
      obtain ⟨flowed, known, here, there⟩ := flowEntries_agrees 0
        (fun item member => Node.listDirective?_of_data (inside.2 item member)) each
      refine ⟨⟨.list flowed, annotations, source⟩,
        Node.isClearData_list.mpr ⟨inside.1, known⟩, ?_, ?_⟩
      · rw [flowNode]
        simp only
        rw [flowList_of_clearData data taken, here, pure_bind]
      · rw [flowNode]
        simp only
        rw [flowList_of_clearData data (same.symm.trans taken), there, pure_bind]
  | map fields annotations source ih =>
    obtain ⟨fuel, rfl⟩ : ∃ n, fuel = n + 1 := ⟨fuel - 1, by omega⟩
    rw [Node.height, Value.height] at enough
    have inside := Node.isClearData_map.mp data
    have same : (if overridable then
          mapOverride? engine.defaultKey ⟨.map fields, annotations, source⟩ b else none) =
        if overridable then
          mapOverride? engine.defaultKey ⟨.map fields, annotations, source⟩ b' else none := by
      rw [agrees.mapOverride? below]
    cases taken : if overridable then
        mapOverride? engine.defaultKey ⟨.map fields, annotations, source⟩ b else none with
    | some result =>
      have overridden : result.isClearData = true := by
        split at taken
        · exact agrees.isClearData_mapOverride? taken
        · cases taken
      refine ⟨result, overridden, ?_, ?_⟩
      · rw [flowNode]
        simp only [flowMap, taken]
      · rw [flowNode]
        simp only [flowMap, ← same, taken]
    | none =>
      have kept (place : Binding) (nothing : (if overridable then
          mapOverride? engine.defaultKey ⟨.map fields, annotations, source⟩ place else none) =
            none) : overridable = true →
          mapOverride? engine.defaultKey ⟨.map fields, annotations, source⟩ place = none := by
        rintro rfl
        exact nothing
      have each : ∀ field ∈ fields, ∃ m : Node, m.isClearData = true ∧
          flowNode engine deeper fuel field.2 ((b.inside annotations).child field.1)
            (overridable && !annotations.blocksOverride) = pure (some m) ∧
          flowNode engine deeper' fuel field.2 ((b'.inside annotations).child field.1)
            (overridable && !annotations.blocksOverride) = pure (some m) := by
        intro field member
        have lower := height_le_fieldsHeight member
        exact ih field member (inside.2 field member).2 (by omega)
          ((agrees.inside annotations).child field.1) (stubPath_child_ne_nil _ field.1)
      obtain ⟨flowed, known, here, there⟩ := flowFields_agrees
        (fun field member => (inside.2 field member).1) each
      refine ⟨⟨.map flowed, annotations, source⟩,
        Node.isClearData_map.mpr ⟨inside.1, known⟩, ?_, ?_⟩
      · rw [flowNode]
        simp only
        rw [flowMap_of_clearData data agrees.noState (kept b taken), here, pure_bind]
      · rw [flowNode]
        simp only
        rw [flowMap_of_clearData data agrees.noState' (kept b' (same.symm.trans taken)), there,
          pure_bind]
  | leaf value annotations source notList notMap =>
    obtain ⟨fuel, rfl⟩ : ∃ n, fuel = n + 1 := ⟨fuel - 1, by omega⟩
    have leaf (deeper : Deeper) (place : Binding) :
        flowNode engine deeper (fuel + 1) ⟨value, annotations, source⟩ place overridable =
          pure (some (flowLeaf engine ⟨value, annotations, source⟩ place overridable)) := by
      rw [flowNode]
      have whole := (Node.isClearData_iff.mp data).2
      cases value with
      | list items => exact absurd rfl (notList items)
      | map fields => exact absurd rfl (notMap fields)
      | string text => simp only [flowString, classify_of_not_embedded whole]
      | expression e => cases whole
      | _ => rfl
    have same : flowLeaf engine ⟨value, annotations, source⟩ b' overridable =
        flowLeaf engine ⟨value, annotations, source⟩ b overridable := by
      rw [flowLeaf, flowLeaf, agrees.stubOverride? below]
    refine ⟨flowLeaf engine ⟨value, annotations, source⟩ b overridable, ?_, leaf deeper b, ?_⟩
    · rw [flowLeaf]
      cases taken : if overridable then
          stubOverride? engine.defaultKey ⟨value, annotations, source⟩ b else none with
      | none => exact data
      | some result =>
        split at taken
        · exact agrees.isClearData_stubOverride? taken
        · cases taken
    · rw [leaf deeper' b', same]

end

/-! ### Documents of data -/

/-- The fields of a map of data without diagnostics. -/
def fieldsClear (fields : Fields Node) : Prop :=
  ∀ field ∈ fields, controlSuffix? field.1 = none ∧ field.2.isClearData = true

/-- A map as a document of a name. -/
def asDocument (source : String) (fields : Fields Node) : Node := .plain (.map fields) source

theorem isClearData_asDocument {source : String} {fields : Fields Node} :
    (asDocument source fields).isClearData = true ↔ fieldsClear fields := by
  rw [asDocument, Node.plain, Node.isClearData_map]
  exact and_iff_right rfl

theorem asDocument_injective {source : String} : Function.Injective (asDocument source) :=
  fun _ _ same => Value.map.inj (congrArg Node.value same)

/-- The same map of data, under two names. -/
def SameDocument (a b : Node) : Prop :=
  ∃ fields source source', a = asDocument source fields ∧ b = asDocument source' fields ∧
    fieldsClear fields

/-- Two settings whose documents see the same stubs, and no state document. -/
structure Setting.Agrees (s s' : Setting) : Prop where
  stubs : List.Forall₂ SameDocument s.stubs s'.stubs
  noState : s.state = none
  noState' : s'.state = none
  overridable : s.overridable = s'.overridable

theorem filterMap_of_sameDocuments {stubs stubs' : List Node} {defaultKey segment : String}
    {path : List String} {keys : List (Option String)}
    (same : List.Forall₂ SameDocument stubs stubs') :
    stubs.filterMap (·.lookupKeyed? defaultKey (segment :: path) keys) =
      stubs'.filterMap (·.lookupKeyed? defaultKey (segment :: path) keys) := by
  induction same with
  | nil => rfl
  | cons first rest ih =>
    obtain ⟨fields, source, source', rfl, rfl, -⟩ := first
    have one : (asDocument source fields).lookupKeyed? defaultKey (segment :: path) keys =
        (asDocument source' fields).lookupKeyed? defaultKey (segment :: path) keys := by
      rw [Node.lookupKeyed?, Node.lookupKeyed?]
      rfl
    rw [List.filterMap_cons, List.filterMap_cons, one, ih]

theorem itemsHeight_of_sameDocuments {stubs stubs' : List Node}
    (same : List.Forall₂ SameDocument stubs stubs') : itemsHeight stubs = itemsHeight stubs' := by
  induction same with
  | nil => rfl
  | cons first rest ih =>
    obtain ⟨fields, source, source', rfl, rfl, -⟩ := first
    rw [itemsHeight, itemsHeight, ih]
    rfl

theorem exists_of_sameDocuments {stubs stubs' : List Node}
    (same : List.Forall₂ SameDocument stubs stubs') :
    ∀ stub ∈ stubs, ∃ fields source, stub = asDocument source fields ∧ fieldsClear fields := by
  induction same with
  | nil => simp
  | cons first rest ih =>
    obtain ⟨fields, source, source', rfl, -, data⟩ := first
    exact List.forall_mem_cons.mpr ⟨⟨fields, source, rfl, data⟩, ih⟩

theorem sameDocuments_symm {stubs stubs' : List Node}
    (same : List.Forall₂ SameDocument stubs stubs') : List.Forall₂ SameDocument stubs' stubs := by
  induction same with
  | nil => exact .nil
  | cons first rest ih =>
    obtain ⟨fields, source, source', rfl, rfl, data⟩ := first
    exact .cons ⟨fields, source', source, rfl, rfl, data⟩ ih

theorem Setting.Agrees.symm {s s' : Setting} (agree : s.Agrees s') : s'.Agrees s where
  stubs := sameDocuments_symm agree.stubs
  noState := agree.noState'
  noState' := agree.noState
  overridable := agree.overridable.symm

theorem Setting.Agrees.rootBinding {s s' : Setting} (agree : s.Agrees s') (defaultKey : String)
    (root root' : Node) : (s.rootBinding root).Agrees defaultKey (s'.rootBinding root') where
  path := rfl
  keys := rfl
  values path keys below := by
    obtain _ | ⟨segment, path⟩ := path
    · exact absurd rfl below
    · exact filterMap_of_sameDocuments agree.stubs
  data stub member := by
    obtain ⟨fields, source, rfl, data⟩ := exists_of_sameDocuments agree.stubs stub member
    exact isClearData_asDocument.mpr data
  noState := agree.noState
  noState' := agree.noState'

/-- Stubs that are maps override no map as a whole. -/
theorem mapOverride?_root {s s' : Setting} (agree : s.Agrees s') {defaultKey : String}
    {node root : Node} : mapOverride? defaultKey node (s.rootBinding root) = none := by
  rw [mapOverride?]
  split
  · rfl
  · split
    · rfl
    · rfl
    · next stub notMap found =>
      have member := List.mem_of_find?_eq_some found
      obtain ⟨known, inStubs, same⟩ := List.mem_filterMap.mp member
      obtain ⟨fields, source, rfl, -⟩ := exists_of_sameDocuments agree.stubs known inStubs
      cases same
      exact absurd rfl (notMap fields {} source)

section

variable {engine : Engine} {deeper deeper' : Deeper} {s s' : Setting} {source source' : String}

/-- Seeding puts the same overrides into a map of data, whatever its name. -/
theorem seeded_agrees (agree : s.Agrees s') {fields : Fields Node} (data : fieldsClear fields) :
    ∃ seeded, fieldsClear seeded ∧
      s.seeded engine (asDocument source fields) = asDocument source seeded ∧
      s'.seeded engine (asDocument source' fields) = asDocument source' seeded := by
  by_cases overridden : s.overridable = true
  · have ordinary := fun field member => (data field member).1
    have roots := agree.rootBinding engine.defaultKey (asDocument source fields)
      (asDocument source' fields)
    have seeded := seedFields_agrees ordinary fun field member =>
      seedOverrides_agrees (data field member).2 (roots.child field.1)
        (stubPath_child_ne_nil _ field.1)
    have kept {s s' : Setting} (agree : s.Agrees s') (overridden : s.overridable = true)
        (source : String) : s.seeded engine (asDocument source fields) =
          asDocument source (seedFields engine.defaultKey fields
            (s.rootBinding (asDocument source fields))) := by
      rw [Setting.seeded, if_pos overridden]
      change seedOverrides engine.defaultKey ⟨.map fields, {}, source⟩ _ = _
      rw [seedOverrides]
      simp only [Annotations.blocksOverride, Bool.or_self, Bool.false_eq_true, if_false,
        mapOverride?_root agree, shapeIsOpen_of_data ordinary]
      rfl
    refine ⟨_, seeded.2, kept agree overridden source, ?_⟩
    rw [kept agree.symm (agree.overridable ▸ overridden) source', seeded.1]
  · refine ⟨fields, data, ?_, ?_⟩
    · rw [Setting.seeded, if_neg overridden]
    · rw [Setting.seeded, if_neg (agree.overridable ▸ overridden)]

/-- A pass makes the same of a map of data, whatever its name and its level. -/
theorem pass_agrees (agree : s.Agrees s') (steps : deeper.fuel = deeper'.fuel)
    {fields : Fields Node} (data : fieldsClear fields) :
    ∃ flowed, fieldsClear flowed ∧
      pass engine deeper s (asDocument source fields) = pure (asDocument source flowed) ∧
      pass engine deeper' s' (asDocument source' fields) = pure (asDocument source' flowed) := by
  have roots := agree.rootBinding engine.defaultKey (asDocument source fields)
    (asDocument source' fields)
  have each : ∀ field ∈ fields, ∃ m : Node, m.isClearData = true ∧
      flowNode engine deeper (fieldsHeight fields + itemsHeight s.stubs + 1 + deeper.fuel) field.2
        ((s.rootBinding (asDocument source fields)).child field.1) s.overridable =
          pure (some m) ∧
      flowNode engine deeper' (fieldsHeight fields + itemsHeight s.stubs + 1 + deeper.fuel) field.2
        ((s'.rootBinding (asDocument source' fields)).child field.1) s.overridable =
          pure (some m) := by
    intro field member
    have lower := height_le_fieldsHeight member
    exact flowNode_agrees (data field member).2 (by omega) (roots.child field.1)
      (stubPath_child_ne_nil _ field.1)
  obtain ⟨flowed, known, here, there⟩ := flowFields_agrees
    (fun field member => (data field member).1) each
  have flows {s s' : Setting} (agree : s.Agrees s') (deeper : Deeper) (source : String)
      (below : flowFields
        (flowNode engine deeper (fieldsHeight fields + itemsHeight s.stubs + 1 + deeper.fuel))
        (s.rootBinding (asDocument source fields)) s.overridable fields = pure flowed) :
      pass engine deeper s (asDocument source fields) = pure (asDocument source flowed) := by
    have height : (asDocument source fields).height + itemsHeight s.stubs + 1 + deeper.fuel =
        (fieldsHeight fields + itemsHeight s.stubs + 1 + deeper.fuel) + 1 := by
      rw [asDocument, Node.plain, Node.height, Value.height]
      omega
    rw [pass, height, flowNode]
    change flowMap engine deeper _ ⟨.map fields, {}, source⟩ fields _ _ >>= _ = _
    have noState : (s.rootBinding (asDocument source fields)).document.state = none :=
      agree.noState
    rw [flowMap_of_clearData (isClearData_asDocument.mpr data) noState
      fun _ => mapOverride?_root agree]
    change (flowFields _ (s.rootBinding (asDocument source fields))
      (s.overridable && true) fields >>= _) >>= _ = _
    rw [Bool.and_true, below]
    rfl
  refine ⟨flowed, known, flows agree deeper source here, flows agree.symm deeper' source' ?_⟩
  rw [← steps, ← agree.overridable, ← itemsHeight_of_sameDocuments agree.stubs]
  exact there

theorem same_asDocument {fields flowed : Fields Node} :
    (asDocument source flowed).same (asDocument source fields) = sameFields flowed fields := by
  rw [asDocument, asDocument, Node.plain, Node.plain, Node.same, Value.same]
  simp

/-- Passes settle a map of data to the same map, or in neither case. -/
theorem settleWithin_agrees (agree : s.Agrees s') (steps : deeper.fuel = deeper'.fuel)
    (passes : Nat) {fields : Fields Node} (data : fieldsClear fields) :
    ∃ settled : Option (Fields Node), (∀ fields ∈ settled, fieldsClear fields) ∧
      settleWithin engine deeper s passes (asDocument source fields) =
        pure (settled.map (asDocument source)) ∧
      settleWithin engine deeper' s' passes (asDocument source' fields) =
        pure (settled.map (asDocument source')) := by
  induction passes generalizing fields with
  | zero => exact ⟨none, by simp, rfl, rfl⟩
  | succ passes ih =>
    obtain ⟨flowed, known, here, there⟩ : ∃ flowed, fieldsClear flowed ∧
        pass engine deeper s (asDocument source fields) = pure (asDocument source flowed) ∧
        pass engine deeper' s' (asDocument source' fields) = pure (asDocument source' flowed) :=
      pass_agrees agree steps data
    rw [settleWithin, settleWithin, here, there, pure_bind, pure_bind]
    simp only [same_asDocument]
    by_cases still : sameFields flowed fields = true
    · refine ⟨some flowed, by simpa using known, ?_, ?_⟩ <;> simp [still]
    · rw [if_neg still, if_neg still]
      exact ih known

/-- A map of data settles to the same map as two documents that agree, or in neither. -/
theorem settle_agrees (agree : s.Agrees s') (steps : deeper.fuel = deeper'.fuel)
    {fields : Fields Node} (data : fieldsClear fields) (source source' : String) :
    ∃ settled : Option (Fields Node), (∀ fields ∈ settled, fieldsClear fields) ∧
      settle engine deeper s (asDocument source fields) =
        pure (settled.map (asDocument source)) ∧
      settle engine deeper' s' (asDocument source' fields) =
        pure (settled.map (asDocument source')) := by
  obtain ⟨seeded, known, here, there⟩ := seeded_agrees agree data
  rw [settle, settle, here, there]
  exact settleWithin_agrees agree steps engine.maxPasses known

end

/-! ### Preparing stubs of data -/

/-- A stub of data once it is prepared: what is left without its local nodes. -/
def preparedData (stub : Node) : Node := Node.orNil (stub.strip? false) stub.source

theorem preparedData_asDocument {source : String} {fields : Fields Node} :
    preparedData (asDocument source fields) = asDocument source (stripFields false fields) := rfl

theorem fieldsClear_strip {temporary : Bool} {fields : Fields Node} (data : fieldsClear fields) :
    fieldsClear (stripFields temporary fields) := by
  rw [stripFields_eq_filterMap]
  intro field member
  obtain ⟨before, known, left⟩ := List.mem_filterMap.mp member
  obtain ⟨child, remains, rfl⟩ := Option.map_eq_some_iff.mp left
  exact ⟨(data before known).1, Node.isClearData_of_strip? (data before known).2 remains⟩

theorem sameDocuments_prepared {stubs stubs' : List Node}
    (same : List.Forall₂ SameDocument stubs stubs') :
    List.Forall₂ SameDocument (stubs.map preparedData) (stubs'.map preparedData) := by
  induction same with
  | nil => exact .nil
  | cons first rest ih =>
    obtain ⟨fields, source, source', rfl, rfl, data⟩ := first
    exact .cons ⟨stripFields false fields, source, source', preparedData_asDocument,
      preparedData_asDocument, fieldsClear_strip data⟩ ih

section

variable {engine : Engine} {deeper : Deeper}

/-- A document of data that nothing overrides is settled as it is. -/
theorem settled_of_clearData {s : Setting} {stub : Node} (passes : 1 ≤ engine.maxPasses)
    (data : stub.isClearData = true) (noState : s.state = none) (calm : s.overridable = false) :
    settled engine deeper s stub = pure stub := by
  have kept : s.seeded engine stub = stub := by
    rw [Setting.seeded, calm, if_neg Bool.false_ne_true]
  have flows : pass engine deeper s stub = pure stub := by
    have place : (s.rootBinding stub).document.state = none := noState
    rw [pass, calm, flowNode_of_resolved (Node.isResolved_of_clearData data)
      (Node.carriesControl_of_clearData data) (by omega) place, pure_bind, Option.getD_some]
  have still : settle engine deeper s stub = pure (some (s.seeded engine stub)) :=
    settle_of_still passes (by rw [kept]; exact flows)
      (by rw [kept]; exact Node.same_of_data data)
  rw [settled, still, kept]
  rfl

/-- Stubs of data are prepared without evaluating anything, and nothing in them is reported. -/
theorem prepareFrom_of_clearData {base : DocumentId} {outer : Option Scope} {depth : Nat}
    {keep : Bool} {stubs : List Node} (passes : 1 ≤ engine.maxPasses)
    (data : ∀ stub ∈ stubs, stub.isClearData = true) (number : Nat) :
    prepareFrom engine deeper base outer depth keep number stubs =
      pure ⟨stubs.map preparedData, {}⟩ := by
  induction stubs generalizing number with
  | nil => rw [prepareFrom]; rfl
  | cons stub rest ih =>
    have first := data stub List.mem_cons_self
    have later := ih (fun stub member => data stub (List.mem_cons_of_mem _ member)) (number + 1)
    rw [prepareFrom, later, pure_bind]
    simp only
    rw [settled_of_clearData passes first rfl rfl, pure_bind, collect_of_clearData first,
      absorb_empty]
    rfl

/-! ### Nested documents of data -/

theorem Eval.lift_pure {α : Type} (a : α) : (ExceptT.lift (pure a : Run α) : Eval α) = pure a := rfl

/-- A settled document of data has a value: what is left without its temporary and local nodes. -/
theorem nestedValue_of_clearData {fields : Fields Node} {source : String}
    (data : fieldsClear fields) :
    nestedValue engine (asDocument source fields) =
      pure (.ofValue (.map (stripFields true fields))) := by
  rw [nestedValue, collect_of_clearData (isClearData_asDocument.mpr data)]
  rfl

/-- The final document of a settled map of data is what is left without its temporary and local
nodes. -/
theorem finalDocument_of_clearData {fields : Fields Node} {source : String}
    (data : fieldsClear fields) :
    (finalDocument (asDocument source fields)).value = .map (stripFields true fields) := by
  have stripped : (asDocument source fields).strip? true =
      some (asDocument source (stripFields true fields)) := rfl
  rw [finalDocument, stripped, Node.orNil, Option.getD_some,
    Node.unescape_of_data (isClearData_asDocument.mpr (fieldsClear_strip data))]
  rfl

end

/-! ### Merges and cascades -/

section

variable {engine : Engine} {deeper : Deeper} {binding : Binding}

theorem delay_positional (arguments : List Expr) :
    delay engine deeper (arguments.map .positional) =
      arguments.map fun e => ⟨true, e, evaluate engine deeper e⟩ := by
  induction arguments with
  | nil => rw [List.map_nil, delay, List.map_nil]
  | cons e rest ih => rw [List.map_cons, delay, ih, List.map_cons]

/-- An argument that evaluates to a map gives it as a document of the name of the place. -/
theorem documentArgument_of_map {e : Expr} {fields : Fields Node} {info : Info}
    (evaluates : evaluate engine deeper e binding = pure ⟨.map fields, info⟩) :
    documentArgument ⟨true, e, evaluate engine deeper e⟩ binding =
      pure (asDocument binding.source fields) := by
  rw [documentArgument]
  simp only
  rw [evaluates, pure_bind]
  rfl

theorem fuel_level (engine : Engine) (fuel levels : Nat) :
    (level engine fuel levels).fuel = fuel := by
  cases levels <;> rfl

/-- A merge whose arguments evaluate to maps flows the first of them as a nested document. -/
theorem evaluate_merge {argument : Expr} {arguments : List Expr} {fields : Fields Node}
    {stubs : List Node}
    (first : ∃ info, evaluate engine deeper argument binding = pure ⟨.map fields, info⟩)
    (others : List.Forall₂ (fun e stub => ∃ fields info,
      evaluate engine deeper e binding = pure ⟨.map fields, info⟩ ∧
      stub = asDocument binding.source fields) arguments stubs) :
    evaluate engine deeper (.intrinsic .merge ((argument :: arguments).map .positional)) binding =
      deeper.flowNested (asDocument binding.source fields) binding none (some stubs) := by
  obtain ⟨info, evaluates⟩ := first
  have positional : ((argument :: arguments).map fun e =>
      (⟨true, e, evaluate engine deeper e⟩ : Delayed)).any (fun d => !d.isPositional) = false := by
    simp
  have documents : (arguments.map fun e => (⟨true, e, evaluate engine deeper e⟩ : Delayed)).mapM
      (fun stub => documentArgument stub binding) = pure stubs := by
    induction others with
    | nil => rfl
    | cons one rest ih =>
      obtain ⟨fields, info, evaluates, rfl⟩ := one
      rw [List.map_cons, List.mapM_cons, documentArgument_of_map evaluates, pure_bind,
        ih (by simp), pure_bind]
  rw [evaluate, delay_positional, Intrinsic.run, positional, if_neg Bool.false_ne_true]
  simp only [List.map_cons, mergeDocuments]
  rw [documentArgument_of_map evaluates, pure_bind, documents, pure_bind]

/-- The setting of a nested document with prepared stubs. -/
def nestedSetting (binding : Binding) (stubs : List Node) : Setting :=
  { id := binding.document.id.nested binding.path, stubs, outer := some binding.scope
    depth := binding.depth + 1, overridable := true }

/-- A nested document that does not settle has no value. -/
theorem flowNested_ne_ok {node : Node} {stubs : List Node} {world after : World} {r : Resolved}
    (unsettled : ∀ prepared before middle,
      (prepareNested engine deeper (binding.document.id.nested binding.path) stubs binding).run
        before = some (.ok prepared, middle) →
      settle engine deeper (nestedSetting binding prepared) node = pure none) :
    (flowNested engine deeper node binding none (some stubs)).run world ≠
      some (.ok r, after) := by
  intro yields
  rw [flowNested] at yields
  obtain ⟨prepared, middle, prepares, rest⟩ := Eval.eq_of_bind yields
  have never := unsettled prepared world middle prepares
  change (ExceptT.lift (settle engine deeper (nestedSetting binding prepared) node) >>= _ :
    Eval Resolved).run middle = _ at rest
  rw [never, Eval.lift_pure, pure_bind] at rest
  cases rest

/-- The value of a nested document of data that settles. -/
theorem flowNested_of_settled {node : Node} {stubs : List Node} {fields : Fields Node}
    {source : String}
    (prepares : prepareNested engine deeper (binding.document.id.nested binding.path) stubs
      binding = pure (stubs.map preparedData)) (data : fieldsClear fields)
    (settles : settle engine deeper (nestedSetting binding (stubs.map preparedData)) node =
      pure (some (asDocument source fields))) :
    flowNested engine deeper node binding none (some stubs) =
      pure (.ofValue (.map (stripFields true fields))) := by
  rw [flowNested]
  simp only [Option.getD_some]
  rw [prepares, pure_bind]
  change ExceptT.lift (settle engine deeper (nestedSetting binding (stubs.map preparedData)) node)
    >>= _ = _
  rw [settles, Eval.lift_pure, pure_bind]
  exact nestedValue_of_clearData data

/-- A cascade whose template does not settle does not succeed. -/
theorem cascade_ne_ok {template : Node} {stubs : List Node} {world after : World}
    {outcome : Outcome}
    (unsettled : ∀ prepared before middle,
      (engine.prepared stubs).run before = some (.ok prepared, middle) → ∀ id,
      settle engine (engine.below 0) (cascadeSetting id prepared.stubs none)
        (injected engine.defaultKey template prepared.stubs) = pure none) :
    (engine.cascade template stubs none).run world ≠ some (.ok outcome, after) := by
  intro succeeds
  rw [Engine.cascade] at succeeds
  obtain ⟨prepared, middle, prepares, rest⟩ := Flow.eq_of_bind succeeds
  rw [Engine.applyPrepared] at rest
  obtain ⟨tree, later, flows, -⟩ := Flow.eq_of_bind rest
  rw [Engine.settledTree] at flows
  obtain ⟨id, start, -, settles⟩ := Flow.eq_of_bind flows
  have never := unsettled prepared world middle prepares id
  rw [settled] at settles
  change (ExceptT.lift (settle engine (engine.below 0) (cascadeSetting id prepared.stubs none)
    (injected engine.defaultKey template prepared.stubs)) >>= _ : Flow Node).run start = _
    at settles
  rw [never] at settles
  cases settles

/-- The outcome of a cascade of data whose template settles. -/
theorem cascade_of_settled {template : Node} {stubs : List Node} {fields : Fields Node}
    {source : String} {world : World}
    (prepares : engine.prepared stubs world =
      some (.ok ⟨stubs.map preparedData, {}⟩, { world with documents := world.documents + 1 }))
    (data : fieldsClear fields)
    (settles : ∀ id, settle engine (engine.below 0)
      (cascadeSetting id (stubs.map preparedData) none)
      (injected engine.defaultKey template (stubs.map preparedData)) =
      pure (some (asDocument source fields))) :
    ∃ outcome after, (engine.cascade template stubs none).run world = some (.ok outcome, after) ∧
      outcome.document.value = .map (stripFields true fields) := by
  let settling : World := { world with documents := world.documents + 1 }
  have flows : engine.settledTree template (stubs.map preparedData) none settling =
      some (.ok (asDocument source fields), { world with documents := world.documents + 2 }) := by
    have whole : settled engine (engine.below 0)
        (cascadeSetting ⟨settling.documents, []⟩ (stubs.map preparedData) none)
        (injected engine.defaultKey template (stubs.map preparedData)) =
        pure (asDocument source fields) := by
      rw [settled, settles]
      rfl
    exact congrFun whole { world with documents := world.documents + 2 }
  have outcome : engine.outcomeOfTree (asDocument source fields) {} =
      .ok { document := finalDocument (asDocument source fields)
            state := stateDocument engine.defaultKey (asDocument source fields)
            unresolved := none } := by
    rw [Engine.outcomeOfTree, collect_of_clearData (isClearData_asDocument.mpr data), absorb_empty]
    rfl
  refine ⟨⟨finalDocument (asDocument source fields),
      stateDocument engine.defaultKey (asDocument source fields), none⟩,
    { world with documents := world.documents + 2 }, ?_, finalDocument_of_clearData data⟩
  change engine.cascade template stubs none world = _
  rw [Engine.cascade, Flow.bind_of_ok prepares, Engine.applyPrepared, Flow.bind_of_ok flows,
    outcome]
  rfl

end

/-- Evaluating `merge(template, stub...)` below the depth limit, on maps of data without
diagnostics, is the cascade of the same maps: it has a value exactly if the cascade succeeds, and
then the value is that of the document. Only what the cascade adds to its template before it starts
has to stand in the first argument already: if no prepared stub has a field flagged for the template
at a path that the template lacks, `fields` are the fields of the template. -/
theorem evaluate_merge_iff_cascade (engine : Engine) (binding : Binding)
    (depth : binding.depth < engine.maxDepth) (argument : Expr) (arguments : List Expr)
    (fields : Fields Node) (template : Node) (stubs : List Node) (source : String)
    (first : ∃ info, evaluate engine (engine.below binding.depth) argument binding =
      pure ⟨.map fields, info⟩)
    (others : List.Forall₂ (fun e stub => ∃ fields source info,
      evaluate engine (engine.below binding.depth) e binding = pure ⟨.map fields, info⟩ ∧
      stub = asDocument source fields ∧ fieldsClear fields) arguments stubs)
    (data : fieldsClear fields)
    (added : injected engine.defaultKey template (stubs.map preparedData) =
      asDocument source fields)
    (value : Value) (world world' : World) :
    (∃ info after, (evaluate engine (engine.below binding.depth)
      (.intrinsic .merge ((argument :: arguments).map .positional)) binding).run world =
        some (.ok ⟨value, info⟩, after)) ↔
    ∃ outcome after, (engine.cascade template stubs none).run world' =
      some (.ok outcome, after) ∧ outcome.document.value = value := by
  -- The same stubs, under the name that the place gives them.
  obtain ⟨named, same, evaluated⟩ : ∃ named, List.Forall₂ SameDocument named stubs ∧
      List.Forall₂ (fun e stub => ∃ fields info,
        evaluate engine (engine.below binding.depth) e binding = pure ⟨.map fields, info⟩ ∧
        stub = asDocument binding.source fields) arguments named := by
    clear added
    induction others with
    | nil => exact ⟨[], .nil, .nil⟩
    | cons one rest ih =>
      obtain ⟨named, same, evaluated⟩ := ih
      obtain ⟨fields, source, info, evaluates, rfl, clear⟩ := one
      exact ⟨asDocument binding.source fields :: named,
        .cons ⟨fields, binding.source, source, rfl, rfl, clear⟩ same,
        .cons ⟨fields, info, evaluates, rfl⟩ evaluated⟩
  obtain ⟨levels, deep⟩ : ∃ levels, engine.maxDepth - binding.depth = levels + 1 :=
    ⟨engine.maxDepth - binding.depth - 1, by omega⟩
  have merge : evaluate engine (engine.below binding.depth)
      (.intrinsic .merge ((argument :: arguments).map .positional)) binding =
      flowNested engine (level engine Engine.spareSteps levels) (asDocument binding.source fields)
        binding none (some named) := by
    rw [evaluate_merge first evaluated, Engine.below, deep]
    rfl
  rw [merge]
  obtain never | passes := Nat.eq_zero_or_pos engine.maxPasses
  · have unsettled (deeper : Deeper) (s : Setting) (root : Node) :
        settle engine deeper s root = pure none := by rw [settle, never, settleWithin]
    constructor
    · rintro ⟨info, after, yields⟩
      exact absurd yields (flowNested_ne_ok fun _ _ _ _ => unsettled _ _ _)
    · rintro ⟨outcome, after, succeeds, -⟩
      exact absurd succeeds (cascade_ne_ok fun _ _ _ _ _ => unsettled _ _ _)
  · have whole {documents : List Node} (listed : ∀ stub ∈ documents, ∃ fields source,
        stub = asDocument source fields ∧ fieldsClear fields) :
        ∀ stub ∈ documents, stub.isClearData = true := by
      intro stub member
      obtain ⟨fields, source, rfl, clear⟩ := listed stub member
      exact isClearData_asDocument.mpr clear
    have prepares : prepareNested engine (level engine Engine.spareSteps levels)
        (binding.document.id.nested binding.path) named binding =
        pure (named.map preparedData) := by
      rw [prepareNested, prepare,
        prepareFrom_of_clearData passes (whole (exists_of_sameDocuments same))]
      rfl
    have prepares' (world : World) : engine.prepared stubs world =
        some (.ok ⟨stubs.map preparedData, {}⟩,
          { world with documents := world.documents + 1 }) := by
      simp only [Engine.prepared, prepare, prepareFrom_of_clearData passes
        (whole (exists_of_sameDocuments (sameDocuments_symm same)))]
      rfl
    -- Both flows settle to the same map, or neither settles.
    have alike (id : DocumentId) : ∃ settled : Option (Fields Node),
        (∀ fields ∈ settled, fieldsClear fields) ∧
        settle engine (level engine Engine.spareSteps levels)
          (nestedSetting binding (named.map preparedData)) (asDocument binding.source fields) =
          pure (settled.map (asDocument binding.source)) ∧
        settle engine (engine.below 0) (cascadeSetting id (stubs.map preparedData) none)
          (injected engine.defaultKey template (stubs.map preparedData)) =
          pure (settled.map (asDocument source)) := by
      rw [added]
      have agree : (nestedSetting binding (named.map preparedData)).Agrees
          (cascadeSetting id (stubs.map preparedData) none) :=
        ⟨sameDocuments_prepared same, rfl, rfl, rfl⟩
      exact settle_agrees agree (by rw [fuel_level, Engine.below, fuel_level]) data _ _
    obtain ⟨settled, clear, here, -⟩ := alike ⟨0, []⟩
    have there (id : DocumentId) : settle engine (engine.below 0)
        (cascadeSetting id (stubs.map preparedData) none)
        (injected engine.defaultKey template (stubs.map preparedData)) =
        pure (settled.map (asDocument source)) := by
      obtain ⟨other, -, here', there⟩ := alike id
      have maps := Run.eq_of_pure (congrFun (here'.symm.trans here) {})
      obtain rfl : other = settled := Option.map_injective asDocument_injective maps
      exact there
    cases settled with
    | none =>
      constructor
      · rintro ⟨info, after, yields⟩
        refine absurd yields (flowNested_ne_ok fun prepared before middle ran => ?_)
        rw [prepares] at ran
        cases ran
        exact here
      · rintro ⟨outcome, after, succeeds, -⟩
        refine absurd succeeds (cascade_ne_ok fun prepared before middle ran id => ?_)
        change engine.prepared stubs before = _ at ran
        rw [prepares'] at ran
        cases ran
        exact there id
    | some left =>
      have clearLeft := clear left rfl
      rw [flowNested_of_settled prepares clearLeft here]
      obtain ⟨outcome, after, succeeds, document⟩ :=
        cascade_of_settled (prepares' world') clearLeft there
      constructor
      · rintro ⟨info, later, yields⟩
        cases yields
        exact ⟨outcome, after, succeeds, document⟩
      · rintro ⟨other, later, again, known⟩
        rw [succeeds] at again
        cases again
        exact ⟨{}, world, by rw [← known, document]; rfl⟩

/-! ### Two merges -/

/-- The place of a field `r` in a document with two further maps, `t` and `s`. -/
def mergePlace (t s : Fields Node) : Binding :=
  ⟨⟨⟨⟨0, []⟩, asDocument "template" [("r", .plain .nil "template"), ("s", asDocument "template" s),
    ("t", asDocument "template" t)], [], none⟩, [], ["r"], none⟩, ["r"], ["r"], [none], 0⟩

/-- The merge of the two maps. -/
def mergeCall : Expr :=
  .intrinsic .merge
    ([.reference (.relative ["t"]), .reference (.relative ["s"])].map .positional)

/-- The ints that the fields of a map hold. -/
def Value.numbers (value : Value) : List (String × Option Int64) :=
  (value.asMap?.getD []).map fun field => (field.1, field.2.value.asInt?)

/-- The ints in the document of a cascade that succeeds. -/
def cascadeNumbers (engine : Engine) (template : Node) (stubs : List Node) :
    Option (List (String × Option Int64)) := do
  let (answer, _) ← (engine.cascade template stubs none).run {}
  let outcome ← answer.toOption
  return outcome.document.value.numbers

theorem exists_of_cascadeNumbers {engine : Engine} {template : Node} {stubs : List Node}
    {numbers : List (String × Option Int64)}
    (known : cascadeNumbers engine template stubs = some numbers) :
    ∃ outcome after, (engine.cascade template stubs none).run {} = some (.ok outcome, after) ∧
      outcome.document.value.numbers = numbers := by
  obtain ⟨⟨answer, after⟩, ran, rest⟩ := Option.bind_eq_some_iff.mp known
  cases answer with
  | error failure => cases rest
  | ok outcome => exact ⟨outcome, after, ran, Option.some.inj rest⟩

/-- A host with a port. -/
def hostFields : Fields Node :=
  [("host", .plain (.string "a") "template"), ("port", .plain (.int 1) "template")]

/-- Another port, and a field that is visible only while the document flows. -/
def portFields : Fields Node :=
  [("port", .plain (.int 2) "template"), ("secret", ⟨.int 3, { temporary := true }, "template"⟩)]

theorem evaluate_merge_hostFields :
    fieldsClear hostFields ∧ fieldsClear portFields ∧
    injected "name" (asDocument "t" hostFields) ([asDocument "s" portFields].map preparedData) =
      asDocument "t" hostFields ∧
    ∃ outcome after, (Engine.standard.cascade (asDocument "t" hostFields)
        [asDocument "s" portFields] none).run {} = some (.ok outcome, after) ∧
      outcome.document.value.numbers = [("host", none), ("port", some 2)] ∧
      ∃ info later, (evaluate Engine.standard (Engine.standard.below 0) mergeCall
        (mergePlace hostFields portFields)).run {} =
          some (.ok ⟨outcome.document.value, info⟩, later) := by
  have host : fieldsClear hostFields := isClearData_asDocument.mp
    (show (asDocument "t" hostFields).isClearData = true by decide)
  have port : fieldsClear portFields := isClearData_asDocument.mp
    (show (asDocument "s" portFields).isClearData = true by decide)
  obtain ⟨outcome, after, succeeds, numbers⟩ := exists_of_cascadeNumbers
    (show cascadeNumbers Engine.standard (asDocument "t" hostFields) [asDocument "s" portFields] =
      some [("host", none), ("port", some 2)] by decide +kernel)
  refine ⟨host, port, rfl, outcome, after, succeeds, numbers, ?_⟩
  exact (evaluate_merge_iff_cascade Engine.standard (mergePlace hostFields portFields) (by decide)
    (.reference (.relative ["t"])) [.reference (.relative ["s"])] hostFields
    (asDocument "t" hostFields) [asDocument "s" portFields] "t" ⟨{}, rfl⟩
    (.cons ⟨portFields, "s", {}, rfl, rfl, port⟩ .nil) host rfl _ {} {}).mpr
    ⟨outcome, after, succeeds, rfl⟩

/-- A field flagged for templates that lack it. -/
def injectedFields : Fields Node := [("x", ⟨.int 5, { inject := true }, "template"⟩)]

/-- The ints in the value of the merge of two maps. -/
def mergeNumbers (engine : Engine) (t s : Fields Node) : Option (List (String × Option Int64)) := do
  let (answer, _) ← (evaluate engine (engine.below 0) mergeCall (mergePlace t s)).run {}
  let resolved ← answer.toOption
  return resolved.value.numbers

/-- The cascade adds the flagged field of the stub to the empty template, and the merge does not. -/
theorem evaluate_merge_injectedFields : fieldsClear injectedFields ∧
    ∃ r outcome after after', (evaluate Engine.standard (Engine.standard.below 0) mergeCall
        (mergePlace [] injectedFields)).run {} = some (.ok r, after) ∧ r.value.numbers = [] ∧
      (Engine.standard.cascade (asDocument "t" []) [asDocument "s" injectedFields] none).run {} =
        some (.ok outcome, after') ∧ outcome.document.value.numbers = [("x", some 5)] ∧
      outcome.document.value ≠ r.value := by
  obtain ⟨outcome, after', succeeds, numbers⟩ := exists_of_cascadeNumbers
    (show cascadeNumbers Engine.standard (asDocument "t" []) [asDocument "s" injectedFields] =
      some [("x", some 5)] by decide +kernel)
  obtain ⟨⟨answer, after⟩, ran, rest⟩ := Option.bind_eq_some_iff.mp
    (show mergeNumbers Engine.standard [] injectedFields = some [] by decide +kernel)
  cases answer with
  | error u => cases rest
  | ok r =>
    have nothing : r.value.numbers = [] := Option.some.inj rest
    refine ⟨isClearData_asDocument.mp
      (show (asDocument "s" injectedFields).isClearData = true by decide), r, outcome, after,
      after', ran, nothing, succeeds, numbers, fun same => ?_⟩
    rw [same, nothing] at numbers
    cases numbers

end Cascade
