import Mathlib.Data.List.Forall2
import Cascade.Flow.Pass
import Cascade.Proofs.TameControl

/-!
# Passes over tame documents

A pass over a tame node comes to an end: every node it goes on with is smaller. What it leaves is
tame. Where no stub puts new expressions in, it also gets ahead: unless something that reports list is
left, there are fewer expressions than before, or nothing is left to do. So a complete document that
a further pass does not change is still.

## Main definitions

* `Node.Advances`: what a pass makes of a node where it gets ahead.
* `IsCalm`: stubs put no expressions in.
* `Leaves`, `FlowHalts`: flowing a node comes to an end.

## Main statements

* `flowNode_halts`: one pass over a subtree comes to an end.
-/

namespace Cascade

open Eval

/-! ### Still nodes -/

theorem Node.still_iff {node : Node} : node.Still ↔ node.value.Still := by
  obtain ⟨value, annotations, source⟩ := node
  exact and_congr_left' Node.tame_iff

theorem Node.Still.of_value {node other : Node} (still : other.Still)
    (same : node.value = other.value) : node.Still :=
  Node.still_iff.mpr (same ▸ Node.still_iff.mp still)

theorem Node.still_map_iff {fields : Fields Node} {annotations : Annotations} {source : String} :
    (Node.mk (.map fields) annotations source).Still ↔
      (Node.mk (.map fields) annotations source).Tame true ∧
        ∀ field ∈ fields, IsPlainKey field.1 ∧ field.2.Still := by
  rw [Node.Still, Node.tame_false_iff, rank_map_eq_zero_iff, Node.pending_map,
    fieldsPending_eq_zero_iff, and_assoc, ← forall₂_and]
  refine and_congr_right fun tame => forall₂_congr fun field member => ?_
  have child := ((Value.tame_map.mp tame.value).2 field member).tame
  rw [Node.Still, Node.tame_false_iff]
  tauto

theorem Node.still_list_iff {items : List Node} {annotations : Annotations} {source : String} :
    (Node.mk (.list items) annotations source).Still ↔ ∀ item ∈ items, item.Still := by
  rw [Node.Still, rank_list_eq_zero_iff, Node.tame_iff, Value.tame_list, ← forall₂_and]
  rfl

theorem inherited_still : Inherited Node.Still where
  item still := Node.still_list_iff.mp still
  field still field member := ((Node.still_map_iff.mp still).2 field member).2

theorem Node.Still.pending {node : Node} (still : node.Still) : node.pending = 0 :=
  Node.pending_of_tame_false still.1

/-! ### Getting ahead -/

/-- What a pass makes of a node: something that reports list, or that holds fewer expressions, or in
which nothing is left to do. A still node stays still. -/
structure Node.Advances (node result : Node) : Prop where
  onward : result.isReported = true ∨ result.pending < node.pending ∨ result.Still
  still : node.Still → result.Still

namespace Node.Advances

variable {node result : Node}

theorem of_still (still : result.Still) : node.Advances result := ⟨.inr (.inr still), fun _ => still⟩

theorem of_pending (some : 0 < node.pending)
    (onward : result.isReported = true ∨ result.pending < node.pending) : node.Advances result where
  onward := onward.imp_right .inl
  still still := absurd still.pending (by omega)

theorem self (kept : node.isReported = true ∨ node.Still) : node.Advances node where
  onward := kept.imp_right .inr
  still := id

/-- Unless reports list it, the result holds no more expressions. -/
theorem stays (advances : node.Advances result) :
    result.isReported = true ∨ result.pending ≤ node.pending := by
  rcases advances.onward with reported | fewer | still
  · exact .inl reported
  · exact .inr (Nat.le_of_lt fewer)
  · exact .inr (still.pending.trans_le (Nat.zero_le _))

end Node.Advances

section

variable {after before : List Node}

/-- A pass over nodes gets ahead if it does so in each of them. Some may be removed. -/
theorem items_advance (kept : List.SublistForall₂ (fun a b => b.Advances a) after before) :
    (itemsReported after = true ∨ itemsPending after < itemsPending before ∨
        ∀ item ∈ after, item.Still) ∧
      ((∀ item ∈ before, item.Still) → ∀ item ∈ after, item.Still) := by
  induction kept with
  | nil => simp
  | @cons a b after before advances kept ih =>
    obtain ⟨onward, still⟩ := ih
    simp only [List.forall_mem_cons, itemsReported, itemsPending, Bool.or_eq_true]
    refine ⟨?_, fun all => ⟨advances.still all.1, still all.2⟩⟩
    -- One report is enough. Without one the counts add up, and they fall if either does.
    rcases onward with reported | fewer | quiet
    · exact .inl (.inr reported)
    · rcases advances.stays with reported | most
      · exact .inl (.inl reported)
      · exact .inr (.inl (by omega))
    · have none : itemsPending after = 0 :=
        itemsPending_eq_zero_iff.mpr fun item member => (quiet item member).pending
      rcases advances.onward with reported | fewer | here
      · exact .inl (.inl reported)
      · exact .inr (.inl (by omega))
      · exact .inr (.inr ⟨here, quiet⟩)
  | @cons_right b after before kept ih =>
    obtain ⟨onward, still⟩ := ih
    simp only [List.forall_mem_cons, itemsPending]
    refine ⟨?_, fun all => still all.2⟩
    rcases onward with reported | fewer | quiet
    · exact .inl reported
    · exact .inr (.inl (by omega))
    · exact .inr (.inr quiet)

theorem items_stay
    (kept : List.SublistForall₂ (fun a b => a.isReported = true ∨ a.pending ≤ b.pending) after before) :
    itemsReported after = true ∨ itemsPending after ≤ itemsPending before := by
  induction kept with
  | nil => exact .inr (Nat.zero_le _)
  | @cons a b after before stays kept ih =>
    simp only [itemsReported, itemsPending, Bool.or_eq_true]
    rcases stays with reported | most
    · exact .inl (.inl reported)
    · exact ih.imp .inr fun others => by omega
  | @cons_right b after before kept ih =>
    simp only [itemsPending]
    exact ih.imp_right fun others => by omega

theorem itemsPending_values (fields : Fields Node) :
    itemsPending (Fields.values fields) = fieldsPending fields := by
  induction fields with
  | nil => rfl
  | cons field rest ih =>
    change field.2.pending + itemsPending (Fields.values rest) = _
    rw [ih, fieldsPending]

theorem itemsReported_values (fields : Fields Node) :
    itemsReported (Fields.values fields) = fieldsReported fields := by
  rw [itemsReported_eq_any, fieldsReported_eq_any, Fields.values, List.any_map]
  rfl

end

theorem isReported_of_mem_fields {fields : Fields Node} {field : String × Node}
    {annotations : Annotations} {source : String} (member : field ∈ fields)
    (reported : field.2.isReported = true) :
    (Node.mk (.map fields) annotations source).isReported = true := by
  rw [Node.isReported, Value.isReported, fieldsReported_eq_any, Bool.or_eq_true, List.any_eq_true]
  exact .inr ⟨field, member, reported⟩

theorem isReported_of_mem_items {items : List Node} {item : Node} {annotations : Annotations}
    {source : String} (member : item ∈ items) (reported : item.isReported = true) :
    (Node.mk (.list items) annotations source).isReported = true := by
  rw [Node.isReported, Value.isReported, itemsReported_eq_any, Bool.or_eq_true, List.any_eq_true]
  exact .inr ⟨item, member, reported⟩

/-- Reports list nothing of a complete tree. -/
theorem Node.isReported_of_isResolved {node : Node} (resolved : node.isResolved = true) :
    node.isReported = false := by
  induction node using Node.treeInduction with
  | list items annotations source ih =>
    obtain ⟨clear, whole⟩ := isResolved_iff.mp resolved
    have noIssue : annotations.issue = none := (congrArg Annotations.issue clear).symm
    rw [isReported, Value.isReported, itemsReported_eq_any, Bool.or_eq_false_iff, List.any_eq_false]
    refine ⟨by simp [Report.expression?, noIssue], fun item member => ?_⟩
    simp [ih item member (allResolved_iff.mp whole item member)]
  | map fields annotations source ih =>
    obtain ⟨clear, whole⟩ := isResolved_iff.mp resolved
    have noIssue : annotations.issue = none := (congrArg Annotations.issue clear).symm
    rw [isReported, Value.isReported, fieldsReported_eq_any, Bool.or_eq_false_iff, List.any_eq_false]
    refine ⟨by simp [Report.expression?, noIssue], fun field member => ?_⟩
    simp [ih field member (allFieldsResolved_iff.mp whole field member)]
  | leaf value annotations source notList notMap =>
    obtain ⟨clear, whole⟩ := isResolved_iff.mp resolved
    have noError : annotations.hasError = false := (congrArg Annotations.hasError clear).symm
    cases value <;> simp_all [isReported, Value.isReported, Report.expression?, valueResolved]

/-! ### Places -/

/-- Stubs do not override the place, or they are still. -/
def IsCalm (binding : Binding) (overridable : Bool) : Prop :=
  overridable = true → ∀ stub ∈ binding.document.stubs, stub.Still

/-- What is left of a node is tame, and at a calm place the pass got ahead. -/
structure Leaves (calm : Prop) (node result : Node) : Prop where
  tame : result.Tame true
  advances : calm → node.Advances result

theorem Leaves.of_still {calm : Prop} {node result : Node} (still : result.Still) :
    Leaves calm node result := ⟨still.1.asWritten, fun _ => .of_still still⟩

theorem Leaves.of_computed {calm : Prop} {node result : Node} (some : 0 < node.pending)
    (computed : result.Tame false) : Leaves calm node result :=
  ⟨computed.asWritten, fun _ =>
    .of_pending some (.inr ((Node.pending_of_tame_false computed).trans_lt some))⟩

namespace Binding.Tame

variable {b : Binding} {defaultKey : String}

theorem inside (tame : b.Tame) (a : Annotations) : (b.inside a).Tame := by
  rw [Binding.inside]
  split <;> exact tame

theorem stateValue? (tame : b.Tame) {node : Node} (found : b.stateValue? defaultKey = some node) :
    node.Still :=
  inherited_still.stateValue? (Document.tame_iff.mp tame.document).2.2 found

end Binding.Tame

section

variable {defaultKey : String} {node other result : Node} {binding : Binding} {overridable : Bool}

/-- The result has the value that a stub has for the place. -/
def Overrides (defaultKey : String) (binding : Binding) (result : Node) : Prop :=
  ∃ stub, binding.overrideValue? defaultKey = some stub ∧ result.value = stub.value

theorem overrides_of_stubOverride? (found : stubOverride? defaultKey node binding = some result) :
    Overrides defaultKey binding result := by
  unfold stubOverride? at found
  split at found
  · cases found
  · obtain ⟨stub, known, rfl⟩ := Option.map_eq_some_iff.mp found
    exact ⟨stub, known, rfl⟩

theorem overrides_of_expressionOverride? {e : Expr}
    (found : expressionOverride? defaultKey node e binding = some result) :
    Overrides defaultKey binding result := by
  unfold expressionOverride? at found
  split at found
  · cases found
  · obtain ⟨stub, known, rfl⟩ := Option.map_eq_some_iff.mp found
    exact ⟨stub, known, rfl⟩

theorem overrides_of_mapOverride? (found : mapOverride? defaultKey node binding = some result) :
    Overrides defaultKey binding result := by
  unfold mapOverride? at found
  split at found
  · cases found
  · split at found
    · cases found
    · cases found
    · next stub _ known =>
      cases found
      exact ⟨stub, known, rfl⟩

theorem Overrides.tame (overrides : Overrides defaultKey binding result) (place : binding.Tame) :
    result.Tame true := by
  obtain ⟨stub, found, same⟩ := overrides
  rw [Node.tame_iff, same]
  exact (inherited_of_tame.overrideValue? place.stubs found).value

theorem Overrides.still (overrides : Overrides defaultKey binding result)
    (still : ∀ stub ∈ binding.document.stubs, stub.Still) : result.Still := by
  obtain ⟨stub, found, same⟩ := overrides
  exact (inherited_still.overrideValue? still found).of_value same

/-- An override is tame, and still at a calm place. -/
theorem leaves_of_override {override : Option Node} (place : binding.Tame)
    (overrides : ∀ n, override = some n → Overrides defaultKey binding n)
    (found : (if overridable then override else none) = some result) :
    Leaves (IsCalm binding overridable) node result := by
  split at found
  · next allowed =>
    have known := overrides result found
    exact ⟨known.tame place, fun calm => .of_still (known.still (calm allowed))⟩
  · cases found

end

/-! ### Leaves -/

/-- The nodes that flowing leaves, if any. -/
def LeavesAll (calm : Prop) (node : Node) (result : Option Node) : Prop :=
  ∀ n ∈ result, Leaves calm node n

theorem leavesAll_some {calm : Prop} {node result : Node} (leaves : Leaves calm node result) :
    LeavesAll calm node (some result) := by
  rintro _ ⟨⟩
  exact leaves

/-- Flowing smaller nodes comes to an end. -/
def FlowHalts (below : Nat → FlowBelow) (node : Node) : Prop :=
  ∀ m binding overridable, m.Smaller node → m.Tame true → binding.Tame →
    Run.Halts (fun steps => below steps m binding overridable)
      (LeavesAll (IsCalm binding overridable) m)

section

variable {engine : Engine} {deeper : Nat → Deeper}
  (registered : engine.functions = Standard.functions) (nested : DeeperHalts deeper) {node : Node}
  {binding : Binding} {overridable : Bool} (place : binding.Tame)

/-- If something overrides a node, the override is what is left; else what follows counts. -/
theorem halts_of_override {calm : Prop} {override : Option Node}
    {otherwise : Nat → Run (Option Node)}
    (taken : ∀ n, override = some n → Leaves calm node n)
    (other : override = none → Run.Halts otherwise (LeavesAll calm node)) :
    Run.Halts (fun steps => match override with
      | some result => pure (some result)
      | none => otherwise steps) (LeavesAll calm node) := by
  cases override with
  | some result => exact .pure (leavesAll_some (taken result rfl))
  | none => exact other rfl

include place in
theorem leaves_flowLeaf (still : node.Still) :
    Leaves (IsCalm binding overridable) node (flowLeaf engine node binding overridable) := by
  unfold flowLeaf
  cases found : (if overridable then stubOverride? engine.defaultKey node binding else none) with
  | none => exact .of_still still
  | some result =>
    exact leaves_of_override place (fun _ => overrides_of_stubOverride?) found

include registered nested place

theorem outcomeOf_halts {e : Expr} (tame : e.Tame) :
    Run.Halts (fun steps => outcomeOf engine (deeper steps) e binding) (Explains Resolved.Tame) :=
  Expr.Tame.halts registered nested tame binding place

/-- An expression comes to an end. It is computed, or it waits and is listed in reports. -/
theorem flowExpression_halts {e : Expr} {written : Node} (tame : e.Tame)
    (some : 0 < written.pending) :
    Run.Halts (fun steps => flowExpression engine (deeper steps) node e binding overridable)
      (LeavesAll (IsCalm binding overridable) written) := by
  unfold flowExpression
  refine halts_of_override (fun result found => ?_) fun _ =>
    halts_of_override (fun result found => ?_) fun _ => ?_
  · exact leaves_of_override place (fun _ => overrides_of_expressionOverride?) found
  · unfold expressionState? at found
    split at found
    · obtain ⟨state, known, rfl⟩ := Option.map_eq_some_iff.mp found
      exact .of_still ((place.stateValue? known).of_value rfl)
    · cases found
  · refine (outcomeOf_halts registered nested place tame).bind fun outcome known => ?_
    split
    · next resolved =>
      refine .pure fun n found => ?_
      unfold resolvedNode at found
      split at found
      · cases found
      · cases found
        exact .of_computed some (Node.tame_iff.mpr known)
    · refine .pure (leavesAll_some ⟨?_, fun _ => .of_pending some (.inl rfl)⟩)
      exact Node.tame_iff.mpr (Value.tame_expression.mpr tame)

theorem flowString_halts {text : String} (tame : node.Tame true)
    (isString : node.value = .string text) :
    Run.Halts (fun steps => flowString engine (deeper steps) node text binding overridable)
      (LeavesAll (IsCalm binding overridable) node) := by
  have inside := tame.value
  rw [isString] at inside
  unfold flowString
  rcases inside with bare | ⟨-, e, reads, mild⟩
  · have still : node.Still :=
      Node.still_iff.mpr (isString ▸ ⟨Value.tame_string_of_isBare bare, rfl⟩)
    simp only [Embedded.classify_of_isBare bare]
    exact .pure (leavesAll_some (leaves_flowLeaf place still))
  · simp only [reads]
    refine flowExpression_halts registered nested place mild ?_
    rw [Node.pending_of_expr? (e := e)]
    · exact Nat.one_pos
    · rw [Node.expr?, isString]
      simp only [reads]

end

/-! ### Control inputs -/

/-- A complete control input is computed, and no control is left in one that held no expression. -/
theorem flowComplete_resolves (engine : Engine) {below : Nat → FlowBelow} {node : Node}
    (flows : FlowHalts below node) :
    ResolvesBelow (fun steps => flowComplete engine (below steps)) node := by
  intro m binding smaller tame place
  unfold flowComplete
  refine (Eval.Halts.lift (flows m binding false smaller tame place)).bind fun result known => ?_
  unfold completeInput
  split
  · exact .pure ⟨Node.tame_plain.mpr Value.tame_nil, fun _ => rfl⟩
  · next flowed =>
    split
    · next resolved =>
      obtain ⟨tame, advances⟩ := known flowed rfl
      refine .pure ⟨Node.tame_of_isResolved tame resolved, fun nothing => ?_⟩
      rcases (advances nofun).onward with reported | fewer | still
      · rw [Node.isReported_of_isResolved resolved] at reported
        cases reported
      · omega
      · exact still.2
    · dsimp only
      split
      · exact .throw rfl
      · exact .throw (isExplained_toUnresolved _ _)

/-! ### Maps -/

theorem erase_ne (key : String) {fields : Fields Node} (sorted : fields.Sorted) :
    ∀ field ∈ Fields.erase key fields, field.1 ≠ key := by
  induction fields with
  | nil => simp [Fields.erase]
  | cons field rest ih =>
    obtain ⟨name, child⟩ := field
    obtain ⟨first, others⟩ := List.pairwise_cons.mp sorted
    rw [Fields.erase]
    split
    · next same =>
      exact fun field member => (String.ne_of_lt (same ▸ first _ (List.mem_map_of_mem member))).symm
    · next differs => exact List.forall_mem_cons.mpr ⟨differs, ih others⟩

theorem fieldsPending_erase {key : String} {fields : Fields Node} {child : Node}
    (found : Fields.find? fields key = some child) :
    fieldsPending (Fields.erase key fields) + child.pending = fieldsPending fields := by
  induction fields with
  | nil => cases found
  | cons field rest ih =>
    obtain ⟨name, other⟩ := field
    rw [Fields.find?_cons] at found
    rw [Fields.erase]
    split at found
    · next same =>
      cases found
      rw [if_pos same, fieldsPending]
      omega
    · next differs =>
      have := ih found
      rw [if_neg differs, fieldsPending, fieldsPending]
      omega

theorem fieldsPending_fill_le {fields extra : Fields Node} :
    fieldsPending (Fields.fill fields extra) ≤ fieldsPending fields + fieldsPending extra := by
  induction extra generalizing fields with
  | nil => exact Nat.le_refl _
  | cons field rest ih =>
    obtain ⟨key, child⟩ := field
    have after : fieldsPending (Fields.fill (Fields.insertIfAbsent key child fields) rest) ≤
        fieldsPending (Fields.insertIfAbsent key child fields) + fieldsPending rest := ih
    have first : fieldsPending (Fields.insertIfAbsent key child fields) ≤
        fieldsPending fields + child.pending := by
      rw [Fields.insertIfAbsent]
      split
      · exact Nat.le_add_right _ _
      · exact fieldsPending_insert_le
    change fieldsPending (Fields.fill (Fields.insertIfAbsent key child fields) rest) ≤ _
    rw [fieldsPending]
    omega

/-- Fields with which a pass goes on in a map: smaller ones, and a directive that failed or has
nothing left to do. They are those of the map if it has no directive. Otherwise the directive is
listed in reports, or there are fewer expressions. -/
structure FieldsFollow (node : Node) (fields left : Fields Node) : Prop where
  sorted : left.Sorted
  tame : ∀ field ∈ left, FieldTame true field
  smaller : ∀ field ∈ left, field.1 ≠ directiveKey → field.2.Smaller node
  directive : ∀ field ∈ left, field.1 = directiveKey → field.2.isReported = true ∨ field.2.Still
  progress : left = fields ∨ 0 < node.pending ∧
    ((∃ field ∈ left, field.1 = directiveKey ∧ field.2.isReported = true) ∨
      fieldsPending left < node.pending)

/-- What a directive leaves of a map. -/
def Spliced.Follows (node : Node) (fields : Fields Node) : Spliced → Prop
  | .fields left _ => FieldsFollow node fields left
  | .value result => 0 < node.pending ∧ result.Tame false

theorem FieldsFollow.of_pending {node : Node} {fields left : Fields Node} (sorted : left.Sorted)
    (tame : ∀ field ∈ left, FieldTame true field)
    (directive : ∀ field ∈ left, field.1 = directiveKey → field.2.Still)
    (fewer : fieldsPending left < node.pending) : FieldsFollow node fields left where
  sorted := sorted
  tame := tame
  smaller _ member _ := .inl ((pending_le_fieldsPending member).trans_lt fewer)
  directive _ member key := .inr (directive _ member key)
  progress := .inr ⟨Nat.zero_lt_of_lt fewer, .inr fewer⟩

theorem Resolved.Tame.directiveValue {r : Resolved} (tame : r.Tame) : r.directiveValue.Tame false := by
  rw [Resolved.directiveValue]
  split
  · exact Value.tame_nil
  · exact tame

section

variable {fields : Fields Node} {annotations : Annotations} {source : String}

/-- A directive that has a value is not in the map any more. -/
theorem spliceDirective_follows {written : Node} {r : Resolved}
    (tame : (Node.mk (.map fields) annotations source).Tame true)
    (found : Fields.find? fields directiveKey = some written) (some : 0 < written.pending)
    (known : r.Tame) :
    (spliceDirective ⟨.map fields, annotations, source⟩ fields r).Follows
      ⟨.map fields, annotations, source⟩ fields := by
  obtain ⟨sorted, inside⟩ := Value.tame_map.mp tame.value
  have ownTame : ∀ field ∈ Fields.erase directiveKey fields, FieldTame true field :=
    fun field member => inside field (Fields.mem_erase member)
  have ownPlain := erase_ne directiveKey sorted
  have whole : (Node.mk (.map fields) annotations source).pending = fieldsPending fields := rfl
  have count := fieldsPending_erase found
  have spliced := known.directiveValue
  unfold spliceDirective
  dsimp only
  split
  · exact .of_pending (sorted.erase _) ownTame
      (fun field member key => absurd key (ownPlain field member)) (by omega)
  · next added shape =>
    rw [shape, Value.tame_map] at spliced
    obtain ⟨inOrder, computed⟩ := spliced
    have none := fieldsPending_of_computed computed
    split
    · exact .of_pending inOrder (fun field member => (computed field member).asWritten)
        (fun field member key => (computed field member).still key) (by omega)
    · have sum : fieldsPending (Fields.fill (Fields.erase directiveKey fields) added) ≤
          fieldsPending (Fields.erase directiveKey fields) + fieldsPending added :=
        fieldsPending_fill_le
      refine .of_pending (sorted.erase _).fill (fun field member => ?_) (fun field member key => ?_)
        (by omega)
      · exact (Fields.mem_fill member).elim (ownTame field) fun new => (computed field new).asWritten
      · exact (Fields.mem_fill member).elim (fun own => absurd key (ownPlain field own))
          fun new => (computed field new).still key
  · exact ⟨by omega, Node.tame_iff.mpr spliced⟩

/-- A directive that does not resolve stays in the map and is listed in reports. -/
theorem stillDirective_follows {written : Node} {e : Expr} {u : Unresolved}
    (tame : (Node.mk (.map fields) annotations source).Tame true)
    (found : Fields.find? fields directiveKey = some written) (some : 0 < written.pending)
    (mild : e.Tame) :
    FieldsFollow ⟨.map fields, annotations, source⟩ fields
      (Fields.insert directiveKey (written.stillExpression e u) fields) := by
  obtain ⟨sorted, inside⟩ := Value.tame_map.mp tame.value
  have waits : (written.stillExpression e u).Tame true :=
    Node.tame_iff.mpr (Value.tame_expression.mpr mild)
  have member := Fields.mem_of_find? found
  refine ⟨sorted.insert _ _, fun field member => ?_, fun field member key => ?_,
    fun field member key => ?_, .inr ⟨?_, .inl ⟨(directiveKey, written.stillExpression e u),
      Fields.mem_of_find? (by rw [Fields.find?_insert, if_pos rfl]), rfl, rfl⟩⟩⟩
  · rcases Fields.mem_insert member with rfl | old
    · exact ⟨(by decide : isBare directiveKey = true), waits, fun _ => .inl rfl⟩
    · exact inside field old
  · rcases Fields.mem_insert member with rfl | old
    · exact absurd rfl key
    · exact Node.smaller_of_mem_map old
  · have only := Fields.find?_of_mem (sorted.insert _ _).distinct member
    rw [key, Fields.find?_insert, if_pos rfl, Option.some.injEq] at only
    exact .inl (only ▸ rfl)
  · exact Nat.lt_of_lt_of_le some (pending_le_fieldsPending member)

variable {engine : Engine} {deeper : Nat → Deeper}
  (registered : engine.functions = Standard.functions) (nested : DeeperHalts deeper)
  {below : Nat → FlowBelow} {node : Node} {binding : Binding} {overridable : Bool}
  (place : binding.Tame)

/-- The directive of a map, as a pass finds it. -/
def directiveOf (fields : Fields Node) : Option (Node × Expr) :=
  (Fields.find? fields directiveKey).bind fun written => written.expr?.map fun e => (written, e)

include registered nested place in
theorem flowDirective_halts (tame : (Node.mk (.map fields) annotations source).Tame true) :
    Run.Halts
      (fun steps => flowDirective engine (deeper steps) ⟨.map fields, annotations, source⟩ fields
        (directiveOf fields) binding)
      (Spliced.Follows ⟨.map fields, annotations, source⟩ fields) := by
  obtain ⟨sorted, inside⟩ := Value.tame_map.mp tame.value
  unfold flowDirective
  split
  · next absent =>
    refine .pure ⟨sorted, inside, fun field member _ => Node.smaller_of_mem_map member,
      fun field member key => .inr ?_, .inl rfl⟩
    have known := Fields.find?_of_mem sorted.distinct member
    rw [key] at known
    rw [directiveOf, known, Option.bind_some, Option.map_eq_none_iff] at absent
    refine ((inside field member).2.2 key).resolve_left ?_
    rw [absent]
    simp
  · next written e present =>
    obtain ⟨child, found, reads⟩ := Option.bind_eq_some_iff.mp present
    obtain ⟨e', reads, same⟩ := Option.map_eq_some_iff.mp reads
    cases same
    have some : 0 < written.pending := by
      rw [Node.pending_of_expr? reads]
      exact Nat.one_pos
    have mild := ((inside _ (Fields.mem_of_find? found)).tame.expr? reads).2
    refine (outcomeOf_halts registered nested place.directive mild).bind fun outcome known => ?_
    split
    · exact .pure (spliceDirective_follows tame found some known)
    · exact .pure (stillDirective_follows tame found some mild)

/-- What flowing leaves of the fields of a map. Directives stay as they are. -/
structure FieldsLeft (calm : Prop) (before after : Fields Node) : Prop where
  names : (Fields.keys after).Sublist (Fields.keys before)
  tame : ∀ field ∈ after, FieldTame true field
  directive : ∀ field ∈ before, field.1 = directiveKey → field ∈ after
  advances : calm →
    List.SublistForall₂ (fun a b => b.Advances a) (Fields.values after) (Fields.values before)

theorem FieldsLeft.mono {calm calmer : Prop} {before after : Fields Node}
    (left : FieldsLeft calm before after) (weaker : calmer → calm) : FieldsLeft calmer before after :=
  { left with advances := fun calm => left.advances (weaker calm) }

theorem flowFields_halts {left : Fields Node} (place : binding.Tame) (flows : FlowHalts below node)
    (tame : ∀ field ∈ left, FieldTame true field)
    (smaller : ∀ field ∈ left, field.1 ≠ directiveKey → field.2.Smaller node)
    (directive : ∀ field ∈ left, field.1 = directiveKey →
      field.2.isReported = true ∨ field.2.Still) :
    Run.Halts (fun steps => flowFields (below steps) binding overridable left)
      (FieldsLeft (IsCalm binding overridable) left) := by
  induction left with
  | nil =>
    simp only [flowFields]
    exact .pure ⟨.slnil, by simp, by simp, fun _ => .nil⟩
  | cons field rest ih =>
    obtain ⟨key, child⟩ := field
    obtain ⟨tame, tames⟩ := List.forall_mem_cons.mp tame
    obtain ⟨smaller, smallers⟩ := List.forall_mem_cons.mp smaller
    obtain ⟨directive, directives⟩ := List.forall_mem_cons.mp directive
    have others := ih tames smallers directives
    simp only [flowFields]
    split
    · next isDirective =>
      simp only [pure_bind]
      refine others.bind fun after left => .pure ⟨left.names.cons_cons _,
        List.forall_mem_cons.mpr ⟨tame, left.tame⟩, List.forall_mem_cons.mpr
          ⟨fun _ => List.mem_cons_self, fun field member key =>
            List.mem_cons_of_mem _ (left.directive field member key)⟩, fun calm => ?_⟩
      exact .cons (.self (directive isDirective)) (left.advances calm)
    · next plain =>
      refine (flows child _ overridable (smaller plain) tame.tame (place.child key)).bind
        fun flowed known => others.bind fun after left => .pure ?_
      have behind : ∀ field ∈ (key, child) :: rest, field.1 = directiveKey → field ∈ after := by
        refine List.forall_mem_cons.mpr ⟨fun isDirective => absurd isDirective plain, ?_⟩
        exact left.directive
      cases flowed with
      | none =>
        exact ⟨left.names.cons _, left.tame, behind, fun calm => .cons_right (left.advances calm)⟩
      | some flowed =>
        obtain ⟨kept, advances⟩ := known flowed rfl
        refine ⟨left.names.cons_cons _, List.forall_mem_cons.mpr ⟨⟨tame.bare, kept, fun isDirective =>
          absurd isDirective plain⟩, left.tame⟩, fun field member isDirective =>
            List.mem_cons_of_mem _ (behind field member isDirective), fun calm => ?_⟩
        exact .cons (advances calm) (left.advances calm)

/-- The map of flowed fields. -/
theorem leaves_of_fields {calm : Prop} {left after : Fields Node} {a : Annotations} {s : String}
    (plain : controlNames fields = []) (tame : (Node.mk (.map fields) annotations source).Tame true)
    (follow : FieldsFollow ⟨.map fields, annotations, source⟩ fields left)
    (flowed : FieldsLeft calm left after) :
    Leaves calm ⟨.map fields, annotations, source⟩ ⟨.map after, a, s⟩ := by
  have result : (Node.mk (.map after) a s).Tame true :=
    Node.tame_iff.mpr (Value.tame_map.mpr ⟨follow.sorted.sublist flowed.names, flowed.tame⟩)
  refine ⟨result, fun calm => ?_⟩
  obtain ⟨onward, still⟩ := items_advance (flowed.advances calm)
  rw [itemsReported_values, itemsPending_values, itemsPending_values] at onward
  have reports (reported : fieldsReported after = true) :
      (Node.mk (.map after) a s).isReported = true := by
    rw [Node.isReported, Value.isReported, reported, Bool.or_true]
  -- Either these are the fields of the map, or its directive has failed, or it is gone and an
  -- expression with it.
  rcases follow.progress with rfl | ⟨some, ⟨field, member, isDirective, reported⟩ | fewer⟩
  · have quiet (inside : ∀ item ∈ Fields.values after, item.Still) :
        (Node.mk (.map after) a s).Still := by
      refine Node.still_map_iff.mpr
        ⟨result, fun field member => ⟨?_, inside _ (List.mem_map_of_mem member)⟩⟩
      have known := flowed.names.mem (List.mem_map_of_mem member)
      obtain ⟨before, among, same⟩ := List.mem_map.mp known
      exact same ▸ controlCount_eq_zero_iff.mp (by rw [controlCount, plain]; rfl) before among
    refine ⟨?_, fun all => quiet (still fun item member => ?_)⟩
    · rcases onward with reported | fewer | inside
      · exact .inl (reports reported)
      · exact .inr (.inl fewer)
      · exact .inr (.inr (quiet inside))
    · obtain ⟨field, among, rfl⟩ := List.mem_map.mp member
      exact inherited_still.field all field among
  · exact .of_pending some
      (.inl (isReported_of_mem_fields (flowed.directive field member isDirective) reported))
  · refine .of_pending some ?_
    rcases onward with reported | most | inside
    · exact .inl (reports reported)
    · exact .inr (Nat.lt_trans most fewer)
    · have none : fieldsPending after = 0 := by
        rw [← itemsPending_values]
        exact itemsPending_eq_zero_iff.mpr fun item member => (inside item member).pending
      exact .inr (none.trans_lt some)

/-- What follows on a control is left of the map that carried it. -/
theorem Leaves.of_followsOn {calm : Prop} {before result : Node} (smaller : result.Smaller before)
    (controlled : 0 < before.rank) {n : Node} (left : Leaves calm result n) : Leaves calm before n := by
  -- With a control in it the map was not still, so it is enough that the count does not rise.
  refine ⟨left.tame, fun quiet => ⟨?_, fun still => absurd still.2 (by omega)⟩⟩
  have most := smaller.pending_le
  exact (left.advances quiet).onward.imp_right (Or.imp_left fun fewer => by omega)

theorem tame_templateNode {e : Expr} (tame : (Node.mk (.map fields) annotations source).Tame true) :
    (templateNode ⟨.map fields, annotations, source⟩ fields e).Still := by
  obtain ⟨sorted, inside⟩ := Value.tame_map.mp tame.value
  refine ⟨Node.tame_iff.mpr (Value.tame_template.mpr (Node.tame_iff.mpr (Value.tame_map.mpr
    ⟨sorted.erase _, fun field member => inside field (Fields.mem_erase member)⟩))), rfl⟩

/-- A map whose control fails is listed in reports. -/
theorem leaves_withDiagnostic {calm : Prop} {u : Unresolved}
    (tame : (Node.mk (.map fields) annotations source).Tame true)
    (controlled : 0 < (Node.mk (.map fields) annotations source).rank) (explained : u.IsExplained) :
    Leaves calm ⟨.map fields, annotations, source⟩
      (Node.withDiagnostic ⟨.map fields, annotations, source⟩ u) := by
  refine ⟨Node.tame_iff.mpr tame.value, fun _ => ⟨.inl ?_, fun still => absurd still.2 (by omega)⟩⟩
  have issue : u.info.issue.isSome = true := explained
  simp [Node.isReported, Node.withDiagnostic, Report.expression?, issue]

include registered nested place

theorem flowPlainMap_halts (flows : FlowHalts below ⟨.map fields, annotations, source⟩)
    (plain : controlNames fields = []) (tame : (Node.mk (.map fields) annotations source).Tame true) :
    Run.Halts
      (fun steps => flowPlainMap engine (deeper steps) (below steps) ⟨.map fields, annotations, source⟩
        fields (directiveOf fields) binding overridable)
      (LeavesAll (IsCalm binding overridable) ⟨.map fields, annotations, source⟩) := by
  unfold flowPlainMap
  refine halts_of_override (fun result found => ?_) fun _ => ?_
  · unfold mapState? at found
    split at found
    · obtain ⟨state, known, rfl⟩ := Option.map_eq_some_iff.mp found
      exact .of_still ((place.stateValue? known).of_value rfl)
    · cases found
  · refine (flowDirective_halts registered nested place tame).bind fun spliced known => ?_
    cases spliced with
    | value result => exact .pure (leavesAll_some (.of_computed known.1 known.2))
    | fields left a =>
      have fields : Run.Halts (fun steps => flowFields (below steps) (binding.inside a)
          (overridable && !a.blocksOverride) left) (FieldsLeft
            (IsCalm (binding.inside a) (overridable && !a.blocksOverride)) left) :=
        flowFields_halts (place.inside a) flows known.tame known.smaller known.directive
      refine fields.bind fun after flowed => .pure (leavesAll_some ?_)
      refine leaves_of_fields plain tame known (flowed.mono fun calm allowed => ?_)
      exact binding.document_inside a ▸ calm (Bool.and_eq_true_iff.mp allowed).1

/-- A map comes to an end if the smaller nodes do. -/
theorem flowMap_halts (controls : engine.controls = Control.standard)
    (flows : FlowHalts below ⟨.map fields, annotations, source⟩)
    (tame : (Node.mk (.map fields) annotations source).Tame true) :
    Run.Halts
      (fun steps => flowMap engine (deeper steps) (below steps) ⟨.map fields, annotations, source⟩
        fields binding overridable)
      (LeavesAll (IsCalm binding overridable) ⟨.map fields, annotations, source⟩) := by
  unfold flowMap
  refine halts_of_override (fun result found => ?_) fun _ => ?_
  · exact leaves_of_override place (fun _ => overrides_of_mapOverride?) found
  · dsimp only
    split
    · exact .pure (leavesAll_some (.of_still (tame_templateNode tame)))
    · cases carried : controlNames fields with
      | nil =>
        simp only [runControl, carried]
        exact flowPlainMap_halts registered nested place flows carried tame
      | cons first rest =>
        obtain ⟨run, same, halts⟩ :=
          runControl_halts nested (flowComplete_resolves engine flows) tame place controls carried
        have controlled : 0 < (Node.mk (.map fields) annotations source).rank := by
          change 0 < min 2 (controlCount fields) + fieldsRank fields
          have : controlCount fields = rest.length + 1 := congrArg List.length carried
          omega
        simp only [same]
        refine Run.Halts.bind halts fun outcome known => ?_
        split
        · exact .pure (by simp [LeavesAll])
        · next result =>
          obtain ⟨tame, smaller⟩ := known result rfl
          exact (flows result binding overridable smaller tame place).mono fun _ left n found =>
            (left n found).of_followsOn smaller controlled
        · exact .pure (leavesAll_some (leaves_withDiagnostic tame controlled known))

end

/-! ### Lists -/

section

variable {items : List Node}

theorem itemsPending_append (items more : List Node) :
    itemsPending (items ++ more) = itemsPending items + itemsPending more := by
  induction items with
  | nil => rw [List.nil_append, itemsPending, Nat.zero_add]
  | cons item rest ih => rw [List.cons_append, itemsPending, ih, itemsPending, Nat.add_assoc]

theorem itemsPending_eraseIdx {position : Nat} {item : Node} (found : items[position]? = some item) :
    itemsPending (items.eraseIdx position) + item.pending = itemsPending items := by
  induction items generalizing position with
  | nil => cases found
  | cons first rest ih =>
    cases position with
    | zero =>
      cases found
      rw [List.eraseIdx_cons_zero, itemsPending]
      omega
    | succ position =>
      have := ih (List.getElem?_cons_succ ▸ found)
      rw [List.eraseIdx_cons_succ, itemsPending, itemsPending]
      omega

theorem itemsPending_insertItems (position : Nat) (added items : List Node) :
    itemsPending (insertItems position added items) = itemsPending items + itemsPending added := by
  have parts := congrArg itemsPending (List.take_append_drop position items)
  rw [itemsPending_append] at parts
  rw [insertItems, itemsPending_append, itemsPending_append]
  omega

theorem itemsPending_of_computed (computed : ∀ item ∈ items, item.Tame false) :
    itemsPending items = 0 :=
  itemsPending_eq_zero_iff.mpr fun item member => Node.pending_of_tame_false (computed item member)

/-- The first directive of a list is that of an entry. -/
theorem exists_of_firstDirective? {position : Nat} {e : Expr}
    (found : firstDirective? items = some (position, e)) :
    ∃ entry, items[position]? = some entry ∧ entry.listDirective? = some e := by
  obtain ⟨⟨entry, index⟩, member, here⟩ := List.exists_of_findSome?_eq_some found
  obtain ⟨e', reads, same⟩ := Option.map_eq_some_iff.mp here
  cases same
  exact ⟨entry, List.mem_zipIdx_iff_getElem?.mp member, reads⟩

theorem eq_of_listDirective? {entry : Node} {e : Expr} (reads : entry.listDirective? = some e) :
    ∃ directive, entry.value = .map [(directiveKey, directive)] ∧ directive.expr? = some e := by
  unfold Node.listDirective? at reads
  split at reads
  · next key directive shape =>
    split at reads
    · next isDirective => exact ⟨directive, by rw [shape, isDirective], reads⟩
    · cases reads
  · cases reads

end

/-- Entries with which a pass goes on in a list: those of the list if it has no directive. Otherwise
the directive is listed in reports, or there are fewer expressions. -/
structure EntriesFollow (node : Node) (items left : List Node) : Prop where
  tame : ∀ entry ∈ left, entry.Tame true
  smaller : ∀ entry ∈ left, entry.listDirective?.isSome = false → entry.Smaller node
  progress : left = items ∧ (∀ entry ∈ items, entry.listDirective?.isSome = false) ∨
    0 < node.pending ∧
      ((∃ entry ∈ left, entry.listDirective?.isSome = true ∧ entry.isReported = true) ∨
        itemsPending left < node.pending)

/-- What the directive of a list leaves. -/
def SplicedList.Follows (calm : Prop) (node : Node) (items : List Node) : SplicedList → Prop
  | .entries left _ => EntriesFollow node items left
  | .value result => Leaves calm node result

theorem EntriesFollow.of_pending {node : Node} {items left : List Node}
    (tame : ∀ entry ∈ left, entry.Tame true) (fewer : itemsPending left < node.pending) :
    EntriesFollow node items left where
  tame := tame
  smaller _ member _ := .inl ((pending_le_itemsPending member).trans_lt fewer)
  progress := .inr ⟨Nat.zero_lt_of_lt fewer, .inr fewer⟩

section

variable {items : List Node} {annotations : Annotations} {source : String}

theorem spliceListDirective_follows {calm : Prop} {engine : Engine} {position : Nat} {entry : Node}
    {r : Resolved} (tame : (Node.mk (.list items) annotations source).Tame true)
    (found : items[position]? = some entry) (some : 0 < entry.pending) (known : r.Tame) :
    (spliceListDirective engine ⟨.list items, annotations, source⟩ items position r).Follows calm
      ⟨.list items, annotations, source⟩ items := by
  have inside := Value.tame_list.mp tame.value
  have own : ∀ item ∈ items.eraseIdx position, item.Tame true := fun item member =>
    inside item (List.mem_of_mem_eraseIdx member)
  have whole : (Node.mk (.list items) annotations source).pending = itemsPending items := rfl
  have count := itemsPending_eraseIdx found
  have spliced := known.directiveValue
  have inserted {added : List Node} (computed : ∀ item ∈ added, item.Tame false) :
      EntriesFollow ⟨.list items, annotations, source⟩ items
        (insertItems position added (items.eraseIdx position)) := by
    refine .of_pending (fun item member => ?_) ?_
    · exact (mem_insertItems member).elim (own item) fun new => (computed item new).asWritten
    · rw [itemsPending_insertItems, itemsPending_of_computed computed]
      omega
  unfold spliceListDirective
  dsimp only
  split
  · exact .of_pending own (by omega)
  · next added shape =>
    rw [shape, Value.tame_list] at spliced
    split
    · refine .of_pending (fun item member => (spliced item member).asWritten) ?_
      rw [itemsPending_of_computed spliced]
      omega
    · split
      · exact inserted fun item member => spliced item (List.mem_of_mem_filter member)
      · exact inserted spliced
  · refine ⟨Node.tame_iff.mpr tame.value, fun _ => .of_pending (by omega) (.inl ?_)⟩
    simp [Node.isReported, Report.expression?]

/-- The entry of a directive that does not resolve is listed in reports. -/
theorem tame_pendingDirective {entry : Node} {e : Expr} {u : Unresolved}
    (reads : entry.listDirective? = some e) (mild : e.Tame) :
    (pendingDirective e u entry).Tame true ∧
      (pendingDirective e u entry).listDirective?.isSome = true ∧
      (pendingDirective e u entry).isReported = true := by
  obtain ⟨directive, shape, -⟩ := eq_of_listDirective? reads
  have made : pendingDirective e u entry =
      entry.withValue (.map [(directiveKey, directive.stillExpression e u)]) := by
    simp [pendingDirective, Node.field?, shape, Fields.find?]
  have waits : (directive.stillExpression e u).Tame true :=
    Node.tame_iff.mpr (Value.tame_expression.mpr mild)
  rw [made]
  refine ⟨Node.tame_iff.mpr (Value.tame_map.mpr ⟨List.pairwise_singleton _ _, ?_⟩), ?_, ?_⟩
  · simp only [List.forall_mem_singleton]
    exact ⟨(by decide : isBare directiveKey = true), waits, fun _ => .inl rfl⟩
  · simp [Node.listDirective?, Node.withValue, Node.stillExpression, Node.withDiagnostic, Node.expr?]
  · exact isReported_of_mem_fields List.mem_cons_self rfl

/-- A directive that does not resolve stays in its entry. -/
theorem pendingDirective_follows {position : Nat} {entry : Node} {e : Expr} {u : Unresolved}
    (tame : (Node.mk (.list items) annotations source).Tame true)
    (found : items[position]? = some entry) (reads : entry.listDirective? = some e)
    (mild : e.Tame) (some : 0 < entry.pending) :
    EntriesFollow ⟨.list items, annotations, source⟩ items
      (items.modify position (pendingDirective e u)) := by
  have inside := Value.tame_list.mp tame.value
  obtain ⟨waits, directive, reported⟩ := tame_pendingDirective (u := u) reads mild
  have among : ∀ item ∈ items.modify position (pendingDirective e u),
      item ∈ items ∨ item = pendingDirective e u entry := by
    intro item member
    obtain ⟨index, here⟩ := List.mem_iff_getElem?.mp member
    rw [List.getElem?_modify] at here
    split at here
    · next same =>
      rw [← same, found] at here
      cases here
      exact .inr rfl
    · exact .inl (List.mem_of_getElem? (by simpa using here))
  have kept : pendingDirective e u entry ∈ items.modify position (pendingDirective e u) :=
    List.mem_of_getElem? (i := position) (by simp [found])
  refine ⟨fun item member => ?_, fun item member plain => ?_,
    .inr ⟨?_, .inl ⟨_, kept, directive, reported⟩⟩⟩
  · rcases among item member with old | rfl
    · exact inside item old
    · exact waits
  · rcases among item member with old | rfl
    · exact Node.smaller_of_mem_list old
    · rw [directive] at plain
      cases plain
  · exact some.trans_le (pending_le_itemsPending (List.mem_of_getElem? found))

variable {engine : Engine} {deeper : Nat → Deeper}
  (registered : engine.functions = Standard.functions) (nested : DeeperHalts deeper)
  {below : Nat → FlowBelow} {node : Node} {binding : Binding} {overridable : Bool}
  (place : binding.Tame)

include registered nested place in
theorem flowListDirective_halts (tame : (Node.mk (.list items) annotations source).Tame true) :
    Run.Halts
      (fun steps => flowListDirective engine (deeper steps) ⟨.list items, annotations, source⟩ items
        binding overridable)
      (SplicedList.Follows (IsCalm binding overridable) ⟨.list items, annotations, source⟩ items) := by
  have inside := Value.tame_list.mp tame.value
  unfold flowListDirective
  split
  · next position e present =>
    obtain ⟨entry, found, reads⟩ := exists_of_firstDirective? present
    obtain ⟨directive, shape, waits⟩ := eq_of_listDirective? reads
    have member := List.mem_of_getElem? found
    have field : FieldTame true (directiveKey, directive) := by
      have fields := (inside entry member).value
      rw [shape] at fields
      exact fields.fields _ List.mem_cons_self
    have mild := (field.tame.expr? waits).2
    have some : 0 < entry.pending := by
      obtain ⟨value, a, s⟩ := entry
      cases shape
      have one := Node.pending_of_expr? waits
      change 0 < fieldsPending [(directiveKey, directive)]
      rw [fieldsPending]
      omega
    refine (outcomeOf_halts registered nested place.directive mild).bind fun outcome known => ?_
    split
    · exact .pure (spliceListDirective_follows tame found some known)
    · exact .pure (pendingDirective_follows tame found reads mild some)
  · next absent =>
    split
    · next result found =>
      refine .pure ?_
      by_cases allowed : overridable = true
      · have known : stubOverride? engine.defaultKey ⟨.list items, annotations, source⟩ binding =
            some result := by
          split at found
          · exact found
          · cases found
        exact leaves_of_override place (fun _ => overrides_of_stubOverride?)
          (by rw [if_pos allowed]; exact known)
      · simp [allowed] at found
    · refine .pure ⟨inside, fun entry member _ => Node.smaller_of_mem_list member, .inl ⟨rfl, ?_⟩⟩
      intro entry member
      rw [firstDirective?, List.findSome?_eq_none_iff] at absent
      obtain ⟨index, here⟩ := List.mem_iff_getElem?.mp member
      have plain := absent (entry, index) (List.mem_zipIdx_iff_getElem?.mpr here)
      rw [Option.map_eq_none_iff] at plain
      rw [plain]
      rfl

/-- What flowing leaves of the entries of a list. Directives stay as they are. -/
structure EntriesLeft (calm : Prop) (before after : List Node) : Prop where
  tame : ∀ entry ∈ after, entry.Tame true
  directive : ∀ entry ∈ before, entry.listDirective?.isSome = true → entry ∈ after
  stays : calm → List.SublistForall₂ (fun a b => a.isReported = true ∨ a.pending ≤ b.pending) after before
  advances : calm → (∀ entry ∈ before, entry.listDirective?.isSome = false) →
    List.SublistForall₂ (fun a b => b.Advances a) after before

theorem EntriesLeft.mono {calm calmer : Prop} {before after : List Node}
    (left : EntriesLeft calm before after) (weaker : calmer → calm) :
    EntriesLeft calmer before after :=
  { left with
    stays := fun calm => left.stays (weaker calm)
    advances := fun calm => left.advances (weaker calm) }

theorem flowEntries_halts {key : String} {index : Nat} {left : List Node} (place : binding.Tame)
    (flows : FlowHalts below node) (tame : ∀ entry ∈ left, entry.Tame true)
    (smaller : ∀ entry ∈ left, entry.listDirective?.isSome = false → entry.Smaller node) :
    Run.Halts (fun steps => flowEntries (below steps) key binding overridable index left)
      (EntriesLeft (IsCalm binding overridable) left) := by
  induction left generalizing index with
  | nil =>
    simp only [flowEntries]
    exact .pure ⟨by simp, by simp, fun _ => .nil, fun _ _ => .nil⟩
  | cons entry rest ih =>
    obtain ⟨tame, tames⟩ := List.forall_mem_cons.mp tame
    obtain ⟨smaller, smallers⟩ := List.forall_mem_cons.mp smaller
    have others : Run.Halts
        (fun steps => flowEntries (below steps) key binding overridable (index + 1) rest)
        (EntriesLeft (IsCalm binding overridable) rest) := ih tames smallers
    simp only [flowEntries]
    split
    · next isDirective =>
      simp only [pure_bind]
      refine others.bind fun after left => .pure ⟨List.forall_mem_cons.mpr ⟨tame, left.tame⟩,
        List.forall_mem_cons.mpr ⟨fun _ => List.mem_cons_self, fun entry member directive =>
          List.mem_cons_of_mem _ (left.directive entry member directive)⟩, fun calm =>
            .cons (.inr (Nat.le_refl _)) (left.stays calm), fun calm plain => ?_⟩
      rw [plain entry List.mem_cons_self] at isDirective
      cases isDirective
    · next plain =>
      refine (flows entry _ overridable (smaller (by simpa using plain)) tame
        (place.entry _ key)).bind fun flowed known => others.bind fun after left => .pure ?_
      have behind : ∀ other ∈ entry :: rest, other.listDirective?.isSome = true → other ∈ after :=
        List.forall_mem_cons.mpr ⟨fun directive => absurd directive plain, left.directive⟩
      have rests (all : ∀ other ∈ entry :: rest, other.listDirective?.isSome = false) :=
        (List.forall_mem_cons.mp all).2
      cases flowed with
      | none =>
        exact ⟨left.tame, behind, fun calm => .cons_right (left.stays calm), fun calm all =>
          .cons_right (left.advances calm (rests all))⟩
      | some flowed =>
        obtain ⟨kept, advances⟩ := known flowed rfl
        exact ⟨List.forall_mem_cons.mpr ⟨kept, left.tame⟩, fun other member directive =>
          List.mem_cons_of_mem _ (behind other member directive), fun calm =>
            .cons (advances calm).stays (left.stays calm), fun calm all =>
              .cons (advances calm) (left.advances calm (rests all))⟩

/-- The list of flowed entries. -/
theorem leaves_of_entries {calm : Prop} {left after : List Node} {a : Annotations} {s : String}
    (follow : EntriesFollow ⟨.list items, annotations, source⟩ items left)
    (flowed : EntriesLeft calm left after) :
    Leaves calm ⟨.list items, annotations, source⟩ ⟨.list after, a, s⟩ := by
  have reports (reported : itemsReported after = true) :
      (Node.mk (.list after) a s).isReported = true := by
    rw [Node.isReported, Value.isReported, reported, Bool.or_true]
  refine ⟨Node.tame_iff.mpr (Value.tame_list.mpr flowed.tame), fun calm => ?_⟩
  rcases follow.progress with ⟨rfl, plain⟩ | ⟨some, ⟨entry, member, directive, reported⟩ | fewer⟩
  · obtain ⟨onward, still⟩ := items_advance (flowed.advances calm plain)
    refine ⟨?_, fun all => Node.still_list_iff.mpr (still (Node.still_list_iff.mp all))⟩
    exact onward.imp reports (Or.imp_right Node.still_list_iff.mpr)
  · exact .of_pending some
      (.inl (isReported_of_mem_items (flowed.directive entry member directive) reported))
  · refine .of_pending some ?_
    exact (items_stay (flowed.stays calm)).imp reports fun most => Nat.lt_of_le_of_lt most fewer

include registered nested place

/-- A list comes to an end if the smaller nodes do. -/
theorem flowList_halts (flows : FlowHalts below ⟨.list items, annotations, source⟩)
    (tame : (Node.mk (.list items) annotations source).Tame true) :
    Run.Halts
      (fun steps => flowList engine (deeper steps) (below steps) ⟨.list items, annotations, source⟩
        items binding overridable)
      (LeavesAll (IsCalm binding overridable) ⟨.list items, annotations, source⟩) := by
  unfold flowList
  refine (flowListDirective_halts registered nested place tame).bind fun spliced known => ?_
  cases spliced with
  | value result => exact .pure (leavesAll_some known)
  | entries left a =>
    have entries : Run.Halts (fun steps => flowEntries (below steps) (a.listKey engine.defaultKey)
        binding (overridable && !a.blocksOverride) 0 left)
        (EntriesLeft (IsCalm binding (overridable && !a.blocksOverride)) left) :=
      flowEntries_halts place flows known.tame known.smaller
    refine entries.bind fun after flowed => .pure (leavesAll_some ?_)
    exact leaves_of_entries known (flowed.mono fun calm allowed =>
      calm (Bool.and_eq_true_iff.mp allowed).1)

end

/-! ### The pass -/

/-- A pass over a tame node comes to an end, with as many steps as it likes. -/
theorem flowNode_halts {engine : Engine} {deeper : Nat → Deeper}
    (functions : engine.functions = Standard.functions)
    (controls : engine.controls = Control.standard) (nested : DeeperHalts deeper) (node : Node) :
    ∀ {bound : Nat → Nat} {binding : Binding} {overridable : Bool}, Unbounded bound →
      node.Tame true → binding.Tame →
      Run.Halts (fun steps => flowNode engine (deeper steps) (bound steps) node binding overridable)
        (LeavesAll (IsCalm binding overridable) node) := by
  induction node using Node.smaller_wellFounded.induction with
  | _ node ih =>
  intro bound binding overridable grows tame place
  -- The induction is on the node and not on the steps: every pass over a smaller node has a number
  -- of steps that is enough, and one more is enough for this node.
  refine Run.Halts.of_succ (r := fun steps fuel =>
    flowNode engine (deeper steps) fuel node binding overridable) (fun _ => rfl)
    (fun _ _ => rfl) grows ?_
  have flows : FlowHalts (fun steps => flowNode engine (deeper steps) (bound steps - 1)) node :=
    fun m binding overridable smaller tame place => ih m smaller grows.pred tame place
  obtain ⟨value, annotations, source⟩ := node
  cases value with
  | map fields => exact flowMap_halts functions nested place controls flows tame
  | list items => exact flowList_halts functions nested place flows tame
  | expression e =>
    exact flowExpression_halts functions nested place (Value.tame_expression.mp tame.value) Nat.one_pos
  | string text => exact flowString_halts functions nested place tame rfl
  | _ => exact .pure (leavesAll_some (leaves_flowLeaf place ⟨Node.tame_false_iff.mpr ⟨tame, rfl⟩, rfl⟩))

end Cascade
