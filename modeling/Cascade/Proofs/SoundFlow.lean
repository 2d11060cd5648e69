import Cascade.Flow.Nested
import Cascade.Node.Json
import Cascade.Proofs.Overlay
import Cascade.Proofs.SoundControl

/-!
# Passes keep diagnostics visible

Whatever a pass leaves in a sound tree is sound: values, expressions that wait, and containers whose
directive or control failed. So every settled tree of a sound document is sound, nested documents
included, at every level of calls.

## Main definitions

* `FlowsSoundly`: flowing a sound node leaves a sound node, if any.
* `Setting.Sound`: what all passes over a document share is sound.

## Main statements

* `flowNode_yields`: one pass keeps a subtree sound.
* `settle_yields`: so does a run of passes.
* `level_sound`: calls and nested documents yield sound values.
-/

namespace Cascade

open Eval

variable [Lineage]

/-! ### Overrides -/

theorem Node.sound_overridden {node stub : Node} {temporary : Bool} (sound : stub.Sound) :
    (node.overridden stub temporary).Sound :=
  Node.sound_of_isClear sound.value (Annotations.isClear_clearIssue _)

section

variable {defaultKey : String} {node result : Node} {binding : Binding} (place : binding.Sound)

include place

theorem sound_stubOverride? (found : stubOverride? defaultKey node binding = some result) :
    result.Sound := by
  unfold stubOverride? at found
  split at found
  · cases found
  · obtain ⟨stub, known, rfl⟩ := Option.map_eq_some_iff.mp found
    exact Node.sound_overridden (place.overrideValue? known)

theorem sound_expressionOverride? {e : Expr}
    (found : expressionOverride? defaultKey node e binding = some result) : result.Sound := by
  unfold expressionOverride? at found
  split at found
  · cases found
  · obtain ⟨stub, known, rfl⟩ := Option.map_eq_some_iff.mp found
    exact Node.sound_overridden (place.overrideValue? known)

theorem sound_mapOverride? (found : mapOverride? defaultKey node binding = some result) :
    result.Sound := by
  unfold mapOverride? at found
  split at found
  · cases found
  · split at found
    · cases found
    · cases found
    · next stub _ known =>
      cases found
      exact Node.sound_overridden (place.overrideValue? known)

/-- Seeding puts sound values into a sound tree. -/
theorem sound_seedOverrides (sound : node.Sound) :
    (seedOverrides defaultKey node binding).Sound := by
  induction node using Node.treeInduction generalizing binding with
  | list items annotations source ih =>
    have inside := Value.sound_list.mp sound.value
    rw [seedOverrides]
    split
    · exact sound
    · split
      · exact sound
      · split
        · next result found => exact sound_stubOverride? place found
        · refine Node.sound_iff.mpr ⟨(Node.sound_iff.mp sound).1, Value.sound_list.mpr ?_⟩
          intro node member
          obtain ⟨item, known, segment, rfl⟩ := mem_seedItems member
          exact ih item known (place.entry _ _) (inside item known)
  | map fields annotations source ih =>
    have inside := Value.sound_map.mp sound.value
    rw [seedOverrides]
    split
    · exact sound
    · split
      · next result found => exact sound_mapOverride? place found
      · split
        · exact sound
        · refine Node.sound_iff.mpr ⟨(Node.sound_iff.mp sound).1, Value.sound_map.mpr ?_⟩
          rw [seedFields_eq_map]
          intro field member
          obtain ⟨written, known, rfl⟩ := List.mem_map.mp member
          simp only
          split
          · exact inside written known
          · exact ih written known (place.child _) (inside written known)
  | leaf value annotations source notList notMap =>
    have overridden : ∀ e, ((expressionOverride? defaultKey ⟨value, annotations, source⟩ e
        binding).getD ⟨value, annotations, source⟩).Sound := by
      intro e
      cases found : expressionOverride? defaultKey ⟨value, annotations, source⟩ e binding with
      | none => exact sound
      | some result => exact sound_expressionOverride? place found
    have replaced : ((stubOverride? defaultKey ⟨value, annotations, source⟩ binding).getD
        ⟨value, annotations, source⟩).Sound := by
      cases found : stubOverride? defaultKey ⟨value, annotations, source⟩ binding with
      | none => exact sound
      | some result => exact sound_stubOverride? place found
    cases value with
    | list items => exact absurd rfl (notList items)
    | map fields => exact absurd rfl (notMap fields)
    | _ =>
      simp only [seedOverrides]
      split
      · exact sound
      · split
        · exact overridden _
        · exact replaced

end

/-! ### Leaves -/

/-- Every node that flowing leaves is sound. -/
def FlowsSoundly (below : FlowBelow) : Prop :=
  ∀ node binding overridable, node.Sound → binding.Sound →
    Run.Yields (below node binding overridable) fun result => ∀ n ∈ result, n.Sound

theorem Node.sound_stillExpression {node : Node} {e : Expr} {u : Unresolved} :
    (node.stillExpression e u).Sound :=
  Node.sound_iff.mpr ⟨rfl, Value.sound_expression e⟩

/-- The engine's functions and controls yield what is sound. -/
structure Engine.Sound (engine : Engine) : Prop where
  functions : engine.FunctionsSound
  controls : engine.ControlsSound

section

variable {engine : Engine} {deeper : Deeper} (registered : engine.Sound) (below : deeper.Sound)
  {node : Node} {binding : Binding} {overridable : Bool} (place : binding.Sound)

/-- If something overrides a node, the override is sound; else what follows counts. -/
theorem sound_of_override {override : Option Node} {otherwise : Run (Option Node)}
    (taken : ∀ n ∈ override, n.Sound)
    (other : Run.Yields otherwise fun result => ∀ n ∈ result, n.Sound) :
    Run.Yields (match override with
      | some result => pure (some result)
      | none => otherwise) fun result => ∀ n ∈ result, n.Sound := by
  split
  · next result =>
    refine .pure ?_
    rintro _ ⟨⟩
    exact taken result rfl
  · exact other

include place in
theorem sound_flowLeaf (sound : node.Sound) : (flowLeaf engine node binding overridable).Sound := by
  unfold flowLeaf
  cases found : (if overridable then stubOverride? engine.defaultKey node binding else none) with
  | none => exact sound
  | some result =>
    split at found
    · exact sound_stubOverride? place found
    · cases found

include registered below place

theorem outcomeOf_yields (e : Expr) :
    Run.Yields (outcomeOf engine deeper e binding) (Explains Resolved.Sound) :=
  evaluate_yields registered.functions below e binding place

theorem flowExpression_yields (e : Expr) :
    Run.Yields (flowExpression engine deeper node e binding overridable) fun result =>
      ∀ n ∈ result, n.Sound := by
  unfold flowExpression
  refine sound_of_override ?_ (sound_of_override ?_ ?_)
  · intro n found
    split at found
    · exact sound_expressionOverride? place found
    · cases found
  · intro n found
    unfold expressionState? at found
    split at found
    · obtain ⟨state, known, rfl⟩ := Option.map_eq_some_iff.mp found
      exact Node.sound_of_isClear (place.stateValue? known).value
        (Annotations.isClear_clearIssue node.annotations)
    · cases found
  · refine (outcomeOf_yields registered below place e).bind fun outcome known => ?_
    split
    · refine .pure fun n found => ?_
      unfold resolvedNode at found
      split at found
      · cases found
      · cases found
        exact Node.sound_of_isClear known (Annotations.isClear_clearIssue node.annotations)
    · refine .pure ?_
      rintro _ ⟨⟩
      exact Node.sound_stillExpression

theorem flowString_yields {text : String} (sound : node.Sound) (isString : node.value = .string text) :
    Run.Yields (flowString engine deeper node text binding overridable) fun result =>
      ∀ n ∈ result, n.Sound := by
  unfold flowString
  split
  · refine .pure ?_
    rintro _ ⟨⟩
    exact sound_flowLeaf place sound
  · refine .pure ?_
    rintro _ ⟨⟩
    exact sound_flowLeaf place sound
  · exact flowExpression_yields registered below place _
  · refine sound_of_override ?_ (.pure ?_)
    · intro n found
      split at found
      · exact sound_stubOverride? place found
      · cases found
    · rintro _ ⟨⟩
      refine Node.sound_iff.mpr ⟨?_, sound.value⟩
      simp [isString, Value.shows]

end

/-! ### Maps -/

/-- What a directive leaves in a map is sound. -/
def Spliced.Sound : Spliced → Prop
  | .fields left annotations => (∀ field ∈ left, field.2.Sound) ∧ annotations.isClear = true
  | .value node => node.Sound

theorem sound_erase {key : String} {fields : Fields Node} (inside : ∀ field ∈ fields, field.2.Sound) :
    ∀ field ∈ Fields.erase key fields, field.2.Sound := fun field member =>
  inside field (Fields.mem_erase member)

theorem sound_insert {key : String} {child : Node} {fields : Fields Node} (sound : child.Sound)
    (inside : ∀ field ∈ fields, field.2.Sound) :
    ∀ field ∈ Fields.insert key child fields, field.2.Sound := by
  intro field member
  rcases Fields.mem_insert member with rfl | known
  · exact sound
  · exact inside field known

theorem Resolved.Sound.directiveValue {r : Resolved} (sound : r.Sound) :
    r.directiveValue.Sound := by
  rw [Resolved.directiveValue]
  split
  · exact Value.sound_nil
  · exact sound

theorem sound_spliceDirective {node : Node} {fields : Fields Node} {r : Resolved}
    (inside : ∀ field ∈ fields, field.2.Sound) (sound : r.Sound) :
    (spliceDirective node fields r).Sound := by
  have spliced := sound.directiveValue
  have clear : (r.info.annotateContainer node.annotations.clearIssue).isClear = true := rfl
  unfold spliceDirective
  simp only
  split
  · exact ⟨sound_erase inside, clear⟩
  · next added shape =>
    rw [shape, Value.sound_map] at spliced
    split
    · exact ⟨spliced, clear⟩
    · refine ⟨fun field member => ?_, clear⟩
      exact (Fields.mem_fill member).elim (sound_erase inside field) (spliced field)
  · show Node.Sound _
    exact Node.sound_of_isClear spliced clear

theorem sound_templateNode {node : Node} {fields : Fields Node} {directive : Expr}
    (sound : node.Sound) (isMap : node.value = .map fields) :
    (templateNode node fields directive).Sound := by
  have inside := sound.value
  rw [isMap, Value.sound_map] at inside
  have own : ∀ field ∈ Fields.erase directiveKey fields, field.2.Sound := sound_erase inside
  have body := sound.withFields ⟨fields, isMap⟩ own
  exact Node.sound_of_isClear (Value.sound_template.mpr body)
    (Annotations.isClear_clearIssue node.annotations)

section

variable {engine : Engine} {deeper : Deeper} (registered : engine.Sound) (nested : deeper.Sound)
  {below : FlowBelow} (flows : FlowsSoundly below) {node : Node} {fields : Fields Node}
  {binding : Binding} {overridable : Bool} (place : binding.Sound) (sound : node.Sound)
  (isMap : node.value = .map fields)

include flows in
theorem flowComplete_yields : ResolvesSoundly (flowComplete engine below) := by
  intro node binding sound place
  exact (Eval.Yields.lift (flows node binding false sound place)).bind fun flowed known =>
    completeInput_yields known

include flows place in
theorem flowFields_yields (inside : ∀ field ∈ fields, field.2.Sound) :
    Run.Yields (flowFields below binding overridable fields) fun flowed =>
      ∀ field ∈ flowed, field.2.Sound := by
  induction fields with
  | nil =>
    rw [flowFields]
    exact .pure (by simp)
  | cons field rest ih =>
    obtain ⟨key, child⟩ := field
    have first := inside _ List.mem_cons_self
    have others := ih fun field member => inside field (List.mem_cons_of_mem _ member)
    have together (flowed : Option Node) (known : ∀ n ∈ flowed, n.Sound) : Run.Yields (do
        let others ← flowFields below binding overridable rest
        return (flowed.map fun child => (key, child)).toList ++ others) fun flowed =>
          ∀ field ∈ flowed, field.2.Sound := by
      refine others.bind fun fields later => .pure fun field member => ?_
      rcases List.mem_append.mp member with here | inRest
      · obtain ⟨child, given, rfl⟩ := Option.map_eq_some_iff.mp (Option.mem_toList.mp here)
        exact known child given
      · exact later field inRest
    rw [flowFields]
    split
    · rw [pure_bind]
      refine together _ ?_
      rintro _ ⟨⟩
      exact first
    · exact (flows child _ overridable first (place.child key)).bind together

theorem sound_mapState? {result : Node} (place : binding.Sound)
    (found : mapState? engine node binding = some result) : result.Sound := by
  unfold mapState? at found
  split at found
  · obtain ⟨state, known, rfl⟩ := Option.map_eq_some_iff.mp found
    exact Node.sound_of_isClear (place.stateValue? known).value
      (Annotations.isClear_clearIssue node.annotations)
  · cases found

include registered nested place sound isMap

theorem flowDirective_yields (directive : Option (Node × Expr)) :
    Run.Yields (flowDirective engine deeper node fields directive binding) Spliced.Sound := by
  have inside := sound.value
  rw [isMap, Value.sound_map] at inside
  have clear := Annotations.isClear_clearIssue node.annotations
  unfold flowDirective
  split
  · exact .pure ⟨inside, clear⟩
  · next written e =>
    refine (outcomeOf_yields registered nested place.directive e).bind fun outcome known => ?_
    split
    · exact .pure (sound_spliceDirective inside known)
    · exact .pure ⟨sound_insert Node.sound_stillExpression inside, clear⟩

include flows

theorem flowPlainMap_yields (directive : Option (Node × Expr)) :
    Run.Yields (flowPlainMap engine deeper below node fields directive binding overridable)
      fun result => ∀ n ∈ result, n.Sound := by
  unfold flowPlainMap
  refine sound_of_override (fun n found => sound_mapState? place found) ?_
  refine (flowDirective_yields registered nested place sound isMap directive).bind
    fun spliced known => ?_
  split
  · refine .pure ?_
    rintro _ ⟨⟩
    exact known
  · next inner annotations =>
    obtain ⟨inside, clear⟩ := known
    refine (flowFields_yields flows ?place inside).bind fun flowed known => .pure ?_
    case place =>
      split
      · exact place.redirected _
      · exact place
    rintro _ ⟨⟩
    exact Node.sound_of_isClear (Value.sound_map.mpr known) clear

theorem flowMap_yields :
    Run.Yields (flowMap engine deeper below node fields binding overridable) fun result =>
      ∀ n ∈ result, n.Sound := by
  have inside := sound.value
  rw [isMap, Value.sound_map] at inside
  unfold flowMap
  refine sound_of_override ?_ ?_
  · intro n found
    split at found
    · exact sound_mapOverride? place found
    · cases found
  · simp only
    split
    · refine .pure ?_
      rintro _ ⟨⟩
      exact sound_templateNode sound isMap
    · split
      · exact flowPlainMap_yields registered nested flows place sound isMap _
      · next control carried =>
        have controlled := runControl_yields nested (flowComplete_yields flows) inside place
          registered.controls sound ⟨fields, isMap⟩ carried
        refine Run.Yields.bind controlled fun outcome known => ?_
        split
        · exact .pure (by simp)
        · next result => exact flows result binding overridable (known result rfl) place
        · next u =>
          refine .pure ?_
          rintro _ ⟨⟩
          exact Node.sound_of_issue sound.value (.inr ⟨fields, isMap⟩) known

end

/-! ### Lists -/

/-- What a directive leaves in a list is sound. -/
def SplicedList.Sound : SplicedList → Prop
  | .entries left annotations => (∀ entry ∈ left, entry.Sound) ∧ annotations.isClear = true
  | .value node => node.Sound

theorem sound_spliceListDirective {engine : Engine} {node : Node} {items : List Node}
    {position : Nat} {r : Resolved} (inside : ∀ item ∈ items, item.Sound) (sound : r.Sound) :
    (spliceListDirective engine node items position r).Sound := by
  have spliced := sound.directiveValue
  have own : ∀ item ∈ items.eraseIdx position, item.Sound := fun item member =>
    inside item (List.mem_of_mem_eraseIdx member)
  have clear : (r.info.annotateContainer node.annotations.clearIssue).isClear = true := rfl
  unfold spliceListDirective
  simp only
  split
  · exact ⟨own, clear⟩
  · next added shape =>
    rw [shape, Value.sound_list] at spliced
    split
    · exact ⟨spliced, clear⟩
    · split
      · refine ⟨fun item member => (mem_insertItems member).elim (own item) fun new => ?_, clear⟩
        exact spliced item (List.mem_of_mem_filter new)
      · exact ⟨fun item member => (mem_insertItems member).elim (own item) (spliced item), clear⟩
  · show Node.Sound _
    exact Node.sound_of_issue (Value.sound_list.mpr inside) (.inl ⟨items, rfl⟩) rfl

theorem sound_pendingDirective {e : Expr} {u : Unresolved} {entry : Node} (sound : entry.Sound) :
    (pendingDirective e u entry).Sound := by
  unfold pendingDirective
  split
  · next written found =>
    refine sound.withFields ?_ (by simp [Node.sound_stillExpression])
    rw [Node.field?] at found
    split at found
    · next fields shape => exact ⟨fields, shape⟩
    · cases found
  · exact sound

section

variable {engine : Engine} {deeper : Deeper} (registered : engine.Sound) (nested : deeper.Sound)
  {below : FlowBelow} (flows : FlowsSoundly below) {node : Node} {items : List Node}
  {binding : Binding} {overridable : Bool} (place : binding.Sound)

include flows place in
theorem flowEntries_yields {key : String} {index : Nat} (inside : ∀ item ∈ items, item.Sound) :
    Run.Yields (flowEntries below key binding overridable index items) fun flowed =>
      ∀ item ∈ flowed, item.Sound := by
  induction items generalizing index with
  | nil =>
    rw [flowEntries]
    exact .pure (by simp)
  | cons entry rest ih =>
    have first := inside _ List.mem_cons_self
    have others : Run.Yields (flowEntries below key binding overridable (index + 1) rest)
        fun flowed => ∀ item ∈ flowed, item.Sound :=
      ih fun item member => inside item (List.mem_cons_of_mem _ member)
    have together (flowed : Option Node) (known : ∀ n ∈ flowed, n.Sound) : Run.Yields (do
        let others ← flowEntries below key binding overridable (index + 1) rest
        return flowed.toList ++ others) fun flowed => ∀ item ∈ flowed, item.Sound := by
      refine others.bind fun items later => .pure fun item member => ?_
      rcases List.mem_append.mp member with here | inRest
      · exact known item (Option.mem_toList.mp here)
      · exact later item inRest
    rw [flowEntries]
    split
    · rw [pure_bind]
      refine together _ ?_
      rintro _ ⟨⟩
      exact first
    · exact (flows entry _ overridable first (place.entry _ key)).bind together

include registered nested place

theorem flowListDirective_yields (inside : ∀ item ∈ items, item.Sound) :
    Run.Yields (flowListDirective engine deeper node items binding overridable)
      SplicedList.Sound := by
  have clear := Annotations.isClear_clearIssue node.annotations
  unfold flowListDirective
  split
  · next position e _ =>
    refine (outcomeOf_yields registered nested place.directive e).bind fun outcome known => ?_
    split
    · exact .pure (sound_spliceListDirective inside known)
    · refine .pure ⟨fun entry member => ?_, clear⟩
      rw [List.mem_iff_getElem] at member
      obtain ⟨i, inRange, rfl⟩ := member
      rw [List.getElem_modify]
      split
      · exact sound_pendingDirective (inside _ (List.getElem_mem _))
      · exact inside _ (List.getElem_mem _)
  · split
    · next result found =>
      refine .pure ?_
      split at found
      · exact sound_stubOverride? place found
      · cases found
    · exact .pure ⟨inside, clear⟩

include flows

theorem flowList_yields (sound : node.Sound) (isList : node.value = .list items) :
    Run.Yields (flowList engine deeper below node items binding overridable) fun result =>
      ∀ n ∈ result, n.Sound := by
  have inside := sound.value
  rw [isList, Value.sound_list] at inside
  unfold flowList
  refine (flowListDirective_yields registered nested place inside).bind fun spliced known => ?_
  split
  · refine .pure ?_
    rintro _ ⟨⟩
    exact known
  · obtain ⟨inside, clear⟩ := known
    refine (flowEntries_yields flows place inside).bind fun flowed known => .pure ?_
    rintro _ ⟨⟩
    exact Node.sound_of_isClear (Value.sound_list.mpr known) clear

end

/-! ### Passes -/

section

variable {engine : Engine} {deeper : Deeper} (registered : engine.Sound) (nested : deeper.Sound)

include registered nested

/-- A pass keeps a subtree sound. -/
theorem flowNode_yields (fuel : Nat) : FlowsSoundly (flowNode engine deeper fuel) := by
  induction fuel with
  | zero => exact fun _ _ _ _ _ => .exhausted
  | succ fuel ih =>
    intro node binding overridable sound place
    rw [flowNode]
    split
    · next fields shape => exact flowMap_yields registered nested ih place sound shape
    · next items shape => exact flowList_yields registered nested ih place sound shape
    · exact flowExpression_yields registered nested place _
    · next text shape => exact flowString_yields registered nested place sound shape
    · refine .pure ?_
      rintro _ ⟨⟩
      exact sound_flowLeaf place sound

end

/-- What all passes over a document share is sound, and the document may be flowed there. -/
structure Setting.Sound (s : Setting) : Prop where
  admitted : Lineage.admits s.id s.outer
  stubs : ∀ stub ∈ s.stubs, stub.Sound
  state : ∀ state ∈ s.state, state.Sound
  locals : ∀ layer ∈ s.locals, ∀ field ∈ layer, field.2.Sound
  outer : ∀ outer ∈ s.outer, outer.Sound

theorem Setting.Sound.rootBinding {s : Setting} {root : Node} (shared : s.Sound)
    (sound : root.Sound) : (s.rootBinding root).Sound :=
  Scope.sound_iff.mpr ⟨shared.admitted,
    Document.sound_iff.mpr ⟨sound, shared.stubs, shared.state⟩, shared.locals, shared.outer⟩

section

variable {engine : Engine} {deeper : Deeper} (registered : engine.Sound) (nested : deeper.Sound)
  {s : Setting} (shared : s.Sound)

include shared in
theorem sound_seeded {root : Node} (sound : root.Sound) : (s.seeded engine root).Sound := by
  rw [Setting.seeded]
  split
  · exact sound_seedOverrides (shared.rootBinding sound) sound
  · exact sound

include registered nested

include shared in
theorem pass_yields {root : Node} (sound : root.Sound) :
    Run.Yields (pass engine deeper s root) Node.Sound := by
  unfold pass
  refine (flowNode_yields registered nested _ root _ _ sound (shared.rootBinding sound)).bind
    fun flowed known => .pure ?_
  cases flowed with
  | none => exact Node.sound_plain Value.sound_nil
  | some node => exact known node rfl

include shared in
theorem settleWithin_yields {passes : Nat} {root : Node} (sound : root.Sound) :
    Run.Yields (settleWithin engine deeper s passes root) fun settled =>
      ∀ tree ∈ settled, tree.Sound := by
  induction passes generalizing root with
  | zero => exact .pure (by simp)
  | succ passes ih =>
    rw [settleWithin]
    refine (pass_yields registered nested shared sound).bind fun next known => ?_
    split
    · refine .pure ?_
      rintro _ ⟨⟩
      exact known
    · exact ih known

include shared in
/-- A sound document settles to a sound tree. -/
theorem settle_yields {root : Node} (sound : root.Sound) :
    Run.Yields (settle engine deeper s root) fun settled => ∀ tree ∈ settled, tree.Sound :=
  settleWithin_yields registered nested shared (sound_seeded shared sound)

end

/-! ### Nested documents -/

theorem Node.Sound.strip? {temporary : Bool} {node result : Node} (sound : node.Sound)
    (kept : node.strip? temporary = some result) : result.Sound := by
  induction node using Node.treeInduction generalizing result with
  | list items annotations source ih =>
    rw [Node.strip?] at kept
    split at kept
    · cases kept
    · cases kept
      rw [Value.strip, stripItems_eq_filterMap]
      refine Node.sound_iff.mpr ⟨(Node.sound_iff.mp sound).1, Value.sound_list.mpr ?_⟩
      intro node member
      obtain ⟨item, known, stripped⟩ := List.mem_filterMap.mp member
      exact ih item known (Value.sound_list.mp sound.value item known) stripped
  | map fields annotations source ih =>
    rw [Node.strip?] at kept
    split at kept
    · cases kept
    · cases kept
      rw [Value.strip, stripFields_eq_filterMap]
      refine Node.sound_iff.mpr ⟨(Node.sound_iff.mp sound).1, Value.sound_map.mpr ?_⟩
      intro field member
      obtain ⟨written, known, stripped⟩ := List.mem_filterMap.mp member
      obtain ⟨child, inside, rfl⟩ := Option.map_eq_some_iff.mp stripped
      exact ih written known (Value.sound_map.mp sound.value written known) inside
  | leaf value annotations source notList notMap =>
    rw [Node.strip?] at kept
    split at kept
    · cases kept
    · cases kept
      cases value with
      | list items => exact absurd rfl (notList items)
      | map fields => exact absurd rfl (notMap fields)
      | _ => exact sound

/-- Every document that a computation yields has a property; nothing is said about errors. -/
def Flow.Yields {α : Type} (f : Flow α) (P : α → Prop) : Prop :=
  Run.Yields f.run fun outcome => ∀ a, outcome = .ok a → P a

namespace Flow.Yields

variable {α β : Type} {P : α → Prop} {Q : β → Prop}

omit [Lineage] in
theorem pure {a : α} (holds : P a) : Flow.Yields (Pure.pure a) P := by
  refine Run.Yields.pure ?_
  rintro _ ⟨⟩
  exact holds

omit [Lineage] in
theorem throw {error : FlowError} : Flow.Yields (MonadExcept.throw error : Flow α) P := by
  refine Run.Yields.pure ?_
  rintro _ ⟨⟩

omit [Lineage] in
theorem bind {f : Flow α} {next : α → Flow β} (first : f.Yields P)
    (later : ∀ a, P a → (next a).Yields Q) : (f >>= next).Yields Q := by
  refine Run.Yields.bind first fun outcome known => ?_
  cases outcome with
  | ok a => exact later a (known a rfl)
  | error failure =>
    refine Run.Yields.pure ?_
    rintro _ ⟨⟩

omit [Lineage] in
theorem lift {r : Run α} (yields : Run.Yields r P) : Flow.Yields (ExceptT.lift r : Flow α) P := by
  change Run.Yields (Except.ok <$> r) _
  rw [map_eq_pure_bind]
  refine yields.bind fun a holds => Run.Yields.pure ?_
  rintro _ ⟨⟩
  exact holds

end Flow.Yields

section

variable {engine : Engine} {deeper : Deeper} (registered : engine.Sound) (nested : deeper.Sound)

include registered nested

theorem settled_yields {s : Setting} {root : Node} (shared : s.Sound) (sound : root.Sound) :
    (settled engine deeper s root).Yields Node.Sound := by
  unfold settled
  refine (Flow.Yields.lift (settle_yields registered nested shared sound)).bind
    fun settled known => ?_
  split
  · next tree => exact .pure (known tree rfl)
  · exact .throw

/-- Prepared stubs are sound if the stubs are. -/
theorem prepareFrom_yields {base : DocumentId} {outer : Option Scope} {depth : Nat} {keep : Bool}
    {number : Nat} {stubs : List Node}
    (admitted : ∀ number : Nat, Lineage.admits (base.nested ["stub" ++ toString number]) outer)
    (outside : ∀ scope ∈ outer, scope.Sound) (sound : ∀ stub ∈ stubs, stub.Sound) :
    (prepareFrom engine deeper base outer depth keep number stubs).Yields fun prepared =>
      ∀ stub ∈ prepared.stubs, stub.Sound := by
  induction stubs generalizing number with
  | nil =>
    rw [prepareFrom]
    exact .pure (by simp)
  | cons stub rest ih =>
    rw [prepareFrom]
    refine (ih fun stub member => sound stub (List.mem_cons_of_mem _ member)).bind
      fun later known => ?_
    have shared : Setting.Sound
        { id := base.nested ["stub" ++ toString number], stubs := later.stubs, outer, depth } :=
      ⟨admitted number, known, by simp, by simp, outside⟩
    refine (settled_yields registered nested shared (sound stub List.mem_cons_self)).bind
      fun tree settled => ?_
    simp only
    split
    · exact .throw
    · refine .pure (List.forall_mem_cons.mpr ⟨?_, known⟩)
      unfold Node.orNil
      cases kept : tree.strip? false with
      | none => exact Node.sound_plain Value.sound_nil
      | some stripped => exact settled.strip? kept

theorem prepareNested_yields {path : List String} {stubs : List Node} {binding : Binding}
    (place : binding.Sound) (sound : ∀ stub ∈ stubs, stub.Sound) :
    (prepareNested engine deeper (binding.document.id.nested path) stubs binding).Yields
      fun prepared => ∀ stub ∈ prepared, stub.Sound := by
  have admitted (number : Nat) : Lineage.admits
      ((binding.document.id.nested path).nested ["stub" ++ toString number])
      (some binding.scope) := Lineage.stub binding.scope path number place.admitted
  have outside : ∀ scope ∈ some binding.scope, scope.Sound := by
    rintro _ ⟨⟩
    exact place
  unfold prepareNested
  refine Eval.Yields.bind (.lift (prepareFrom_yields registered nested admitted outside sound))
    fun outcome known => ?_
  split
  · next prepared => exact .pure (known prepared rfl)
  · exact .throw (isExplained_toUnresolved _ _)
  · exact .fail

omit registered nested in
theorem nestedValue_yields {tree : Node} (sound : tree.Sound) :
    (nestedValue engine tree).Yields Resolved.Sound := by
  unfold nestedValue
  simp only
  split
  · refine .pure ?_
    show Value.Sound _
    cases kept : tree.strip? true with
    | none => exact Value.sound_nil
    | some stripped => exact (sound.strip? kept).value
  · exact .throw (isExplained_toUnresolved _ _)

/-- A sound node flowed as a document of its own yields a sound value. -/
theorem flowNested_yields {node : Node} {binding : Binding} {locals : Option (Fields Node)}
    {stubs : Option (List Node)} (sound : node.Sound) (place : binding.Sound)
    (named : ∀ names ∈ locals, ∀ field ∈ names, field.2.Sound)
    (trees : ∀ trees ∈ stubs, ∀ stub ∈ trees, stub.Sound) :
    (flowNested engine deeper node binding locals stubs).Yields Resolved.Sound := by
  have given : ∀ stub ∈ stubs.getD [], stub.Sound := by
    cases stubs with
    | none => simp
    | some known => exact trees known rfl
  unfold flowNested
  refine (prepareNested_yields registered nested place given).bind fun prepared known => ?_
  have shared : Setting.Sound
      { id := binding.document.id.nested binding.path, stubs := prepared, locals := locals.toList,
        outer := some binding.scope, depth := binding.depth + 1, overridable := stubs.isSome } := by
    refine ⟨Lineage.nested binding.scope binding.path place.admitted, known, by simp,
      fun layer member => named layer (Option.mem_toList.mp member), ?_⟩
    rintro _ ⟨⟩
    exact place
  refine Eval.Yields.bind (.lift (settle_yields registered nested shared sound))
    fun settled known => ?_
  split
  · next tree => exact nestedValue_yields (known tree rfl)
  · exact .fail

end

/-- At every level, calls and nested documents yield sound values. -/
theorem level_sound {engine : Engine} (registered : engine.Sound) (fuel levels : Nat) :
    (level engine fuel levels).Sound := by
  induction levels with
  | zero => exact ⟨fun _ _ _ _ _ _ => .fail, fun _ _ _ _ _ _ _ _ => .fail⟩
  | succ levels ih =>
    exact ⟨fun _ _ _ sound arguments place =>
        invokeLambda_yields registered.functions ih sound arguments place,
      fun _ _ _ _ sound place named trees =>
        flowNested_yields registered ih sound place named trees⟩

/-- The functions and controls that every engine has keep diagnostics visible. -/
theorem Engine.sound_of_standard {engine : Engine} (functions : engine.functions = Standard.functions)
    (controls : engine.controls = Control.standard) : engine.Sound where
  functions name function found :=
    Standard.functions_sound (name, function) (Fields.mem_of_find? (functions ▸ found))
  controls name control found :=
    Control.standard_sound (name, control) (Fields.mem_of_find? (controls ▸ found))

/-! ### Documents of JSON -/

/-- Documents as they are read are sound: they carry no diagnostics. -/
theorem sound_ofJson (source : String) : ∀ json, (Node.ofJson source json).Sound
  | .null => by
    rw [Node.ofJson]
    exact Node.sound_plain Value.sound_nil
  | .bool b => by
    rw [Node.ofJson]
    exact Node.sound_plain (Value.sound_bool b)
  | .int n => by
    rw [Node.ofJson]
    exact Node.sound_plain (Value.sound_int n)
  | .float x => by
    rw [Node.ofJson]
    exact Node.sound_plain (Value.sound_float x)
  | .string s => by
    rw [Node.ofJson]
    exact Node.sound_plain (Value.sound_string s)
  | .array items => by
    rw [Node.ofJson]
    exact Node.sound_plain (by rw [Value.Sound]; exact sound_ofJsonItems source items)
  | .object members => by
    rw [Node.ofJson]
    exact Node.sound_plain (by rw [Value.Sound]; exact sound_ofJsonMembers source members)
where
  sound_ofJsonItems (source : String) : ∀ items, itemsSound (Node.ofJsonItems source items)
    | [] => by
      rw [Node.ofJsonItems, itemsSound]
      trivial
    | item :: rest => by
      rw [Node.ofJsonItems, itemsSound]
      exact ⟨sound_ofJson source item, sound_ofJsonItems source rest⟩
  sound_ofJsonMembers (source : String) : ∀ members, fieldsSound (Node.ofJsonMembers source members)
    | [] => by
      rw [Node.ofJsonMembers, fieldsSound]
      trivial
    | (key, item) :: rest => by
      rw [Node.ofJsonMembers, fieldsSound]
      exact ⟨sound_ofJson source item, sound_ofJsonMembers source rest⟩

end Cascade
