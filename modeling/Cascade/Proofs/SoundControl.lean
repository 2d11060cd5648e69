import Cascade.Control.Dispatch
import Cascade.Proofs.SoundEvaluation

/-!
# Calls and controls keep diagnostics visible

## Main definitions

* `ControlContext.Sound`, `Control.Sound`: controls that yield sound nodes.
* `ResolvesSoundly`: flowing a control input yields a sound node.

## Main statements

* `invokeLambda_yields`: calls of lambdas yield sound values.
* `Control.standard_sound`: the standard controls yield sound nodes.
* `runControl_yields`: so does the control of a map.
-/

namespace Cascade

open Eval

variable [Lineage]

/-! ### Places below a place -/

theorem Scope.Sound.anchored {scope : Scope} (sound : scope.Sound) (anchor : List String) :
    Scope.Sound { scope with anchor } := by
  obtain ⟨admitted, document, locals, outer⟩ := Scope.sound_iff.mp sound
  exact Scope.sound_iff.mpr ⟨admitted, document, locals, outer⟩

namespace Binding.Sound

variable {b : Binding}

theorem child (sound : b.Sound) (segment : String) : (b.child segment).Sound :=
  Scope.Sound.anchored sound _

theorem entry (sound : b.Sound) (segment key : String) : (b.entry segment key).Sound :=
  Scope.Sound.anchored sound _

theorem directive (sound : b.Sound) : b.directive.Sound := Scope.Sound.anchored sound _

theorem redirected (sound : b.Sound) (path : List String) : (b.redirected path).Sound := sound

theorem deeper {scope : Scope} (sound : scope.Sound) : (b.deeper scope).Sound := sound

end Binding.Sound

/-! ### Calls of lambdas -/

theorem Lambda.Sound.callScope {l : Lambda} {caller : Binding} (sound : l.Sound)
    (place : caller.Sound) : (l.callScope caller).Sound := by
  obtain ⟨definition, -⟩ := Lambda.sound_iff.mp sound
  rw [Lambda.callScope]
  split
  · next same =>
    obtain ⟨admitted, -, locals, outer⟩ := Scope.sound_iff.mp definition
    rw [same] at admitted
    exact Scope.sound_iff.mpr ⟨admitted, place.document, locals, outer⟩
  · exact definition

section

variable {engine : Engine} {deeper : Deeper} (functions : engine.FunctionsSound)
  (below : deeper.Sound)

include functions below

theorem parameterNode_yields {scope : Scope} {caller : Binding} {layer : Fields Node}
    {slot : Option Node} {param : Parameter} (sound : scope.Sound)
    (named : ∀ field ∈ layer, field.2.Sound) (bound : ∀ node ∈ slot, node.Sound) :
    (parameterNode engine deeper scope caller layer slot param).Yields Node.Sound := by
  unfold parameterNode
  split
  · next node => exact .pure (bound node rfl)
  · split
    · exact .pure (Node.sound_plain (Value.sound_list.mpr (by simp)))
    · split
      · next default _ =>
        have inside : (caller.deeper (scope.layered layer)).Sound := sound.layered named
        exact (evaluate_yields functions below default _ inside).bind fun resolved known =>
          .pure known.toNode
      · exact .fail

theorem parameterLayer_yields {scope : Scope} {caller : Binding} {slots : Slots} {position : Nat}
    {params : List Parameter} {layer : Fields Node} (sound : scope.Sound)
    (named : ∀ field ∈ layer, field.2.Sound) (bound : ∀ slot ∈ slots, slot.2.Sound) :
    (parameterLayer engine deeper scope caller slots position params layer).Yields fun layer =>
      ∀ field ∈ layer, field.2.Sound := by
  induction params generalizing position layer with
  | nil =>
    rw [parameterLayer]
    exact .pure named
  | cons param rest ih =>
    rw [parameterLayer]
    have slot : ∀ node ∈ slots.find? position, node.Sound := fun node found =>
      bound _ (Slots.mem_of_find? found)
    refine (parameterNode_yields functions below sound named slot).bind fun node known => ?_
    refine ih fun field member => ?_
    rcases Fields.mem_insert member with rfl | before
    · exact known
    · exact named field before

theorem invokeLambda_yields {l : Lambda} {args : List ArgumentValue} {caller : Binding}
    (sound : l.Sound) (arguments : ∀ argument ∈ args, argument.Sound) (place : caller.Sound) :
    (invokeLambda engine deeper l args caller).Yields Resolved.Sound := by
  unfold invokeLambda
  refine Eval.Yields.bind (.ofFailing fun slots bound =>
    Lambda.sound_bindArguments sound arguments bound) fun slots bound => ?_
  have scope := sound.callScope place
  have own : ∀ field ∈ ([("_", .plain (.lambda l) caller.source)] : Fields Node),
      field.2.Sound := by
    simp [Node.sound_plain (Value.sound_lambda.mpr sound)]
  refine (parameterLayer_yields functions below scope own bound).bind fun layer named => ?_
  exact evaluate_yields functions below l.expr.body _
    (Binding.Sound.deeper (scope.layered named))

end

/-! ### Controls -/

/-- Everything that a control sees is sound. -/
structure ControlContext.Sound (c : ControlContext) : Prop where
  value : c.value.Sound
  node : c.node.Sound
  isMap : ∃ fields, c.node.value = .map fields
  fields : ∀ field ∈ c.fields, field.2.Sound
  options : ∀ field ∈ c.options, field.2.Sound
  place : c.binding.Sound

theorem ControlContext.Sound.option? {c : ControlContext} {name : String} {node : Node}
    (sound : c.Sound) (found : c.option? name = some node) : node.Sound :=
  sound.options _ (Fields.mem_of_find? found)

/-- Flowing a sound node at a sound place yields a sound node. -/
def ResolvesSoundly (resolve : Node → Binding → Eval Node) : Prop :=
  ∀ node binding, node.Sound → binding.Sound → (resolve node binding).Yields Node.Sound

/-- From what is sound the control yields a sound node, if any. -/
def Control.Sound (control : Control) : Prop :=
  ∀ deeper resolve context, deeper.Sound → ResolvesSoundly resolve → context.Sound →
    (control.run deeper resolve context).Yields fun result => ∀ node ∈ result, node.Sound

theorem conditional_sound : Control.conditional.Sound := by
  intro deeper resolve context _ _ sound
  exact .pure fun node found => sound.option? found

theorem choose_yields {context : ControlContext} {selected : Option Node} {what : String}
    (sound : context.Sound) (known : ∀ node ∈ selected, node.Sound) :
    (choose context selected what).Yields fun result => ∀ node ∈ result, node.Sound := by
  unfold choose
  split
  · next node found =>
    refine .pure ?_
    rintro _ ⟨⟩
    rcases Option.or_eq_some_iff.mp found with here | ⟨-, default⟩
    · exact known node here
    · exact sound.option? default
  · exact .fail

theorem caseMatches_yields {deeper : Deeper} {context : ControlContext} {case : Node}
    (below : deeper.Sound) (sound : context.Sound) (test : case.Sound) :
    (caseMatches deeper context case).Yields fun _ => True := by
  unfold caseMatches
  split
  · next predicate shape =>
    have lambda : predicate.Sound := Value.sound_lambda.mp (shape ▸ test.value)
    refine (below.invoke predicate _ context.binding lambda ?_ sound.place).bind fun _ _ =>
      .pure trivial
    simp [ArgumentValue.Sound, sound.value]
  · exact .pure trivial

theorem selectCase_yields {deeper : Deeper} {resolve : Node → Binding → Eval Node}
    {context : ControlContext} {place : Binding} {index : Nat} {entries : List Node}
    (below : deeper.Sound) (resolves : ResolvesSoundly resolve) (sound : context.Sound)
    (here : place.Sound) (inside : ∀ entry ∈ entries, entry.Sound) :
    (selectCase deeper resolve context place index entries).Yields fun result =>
      ∀ node ∈ result, node.Sound := by
  induction entries generalizing index with
  | nil =>
    rw [selectCase]
    exact .pure (by simp)
  | cons entry rest ih =>
    have first := inside entry List.mem_cons_self
    rw [selectCase]
    split
    · next case value caseFound valueFound =>
      refine (resolves case _ (Node.Sound.field? first caseFound) ((here.child _).child _)).bind
        fun case test => ?_
      refine (caseMatches_yields below sound test).bind fun accepted _ => ?_
      split
      · refine .pure ?_
        rintro _ ⟨⟩
        exact Node.Sound.field? first valueFound
      · exact ih fun entry member => inside entry (List.mem_cons_of_mem _ member)
    · exact .fail

theorem switchCase_yields {deeper : Deeper} {resolve : Node → Binding → Eval Node}
    {context : ControlContext} (below : deeper.Sound) (resolves : ResolvesSoundly resolve)
    (sound : context.Sound) :
    (switchCase deeper resolve context).Yields fun result => ∀ node ∈ result, node.Sound := by
  have cases (value : Value) (found : (context.option? "cases").map Node.value = some value) :
      value.Sound := by
    obtain ⟨cases, known, rfl⟩ := Option.map_eq_some_iff.mp found
    exact (sound.option? known).value
  unfold switchCase
  split
  · exact .pure (by simp)
  · next fields given =>
    split
    · exact .pure fun node found => Value.sound_map.mp (cases _ given) _ (Fields.mem_of_find? found)
    · exact mismatch_yields
  · next entries given =>
    exact selectCase_yields below resolves sound (sound.place.child _)
      (Value.sound_list.mp (cases _ given))
  · exact mismatch_yields

theorem switch_sound : Control.switch.Sound := by
  intro deeper resolve context below resolves sound
  exact (switchCase_yields below resolves sound).bind fun selected known =>
    choose_yields sound known

theorem typeCase_yields {context : ControlContext} (sound : context.Sound) :
    (typeCase context).Yields fun result => ∀ node ∈ result, node.Sound := by
  unfold typeCase
  split
  · exact .pure (by simp)
  · next fields given =>
    obtain ⟨cases, known, shape⟩ := Option.map_eq_some_iff.mp given
    split
    · exact .fail
    · exact .pure fun node found =>
        Value.sound_map.mp (shape ▸ (sound.option? known).value) _ (Fields.mem_of_find? found)
  · exact mismatch_yields

theorem type_sound : Control.type.Sound := by
  intro deeper resolve context _ _ sound
  exact (typeCase_yields sound).bind fun selected known => choose_yields sound known

theorem mergeSources_yields {node : Node} (sound : node.Sound) :
    (mergeSources node).Yields fun sources => ∀ source ∈ sources, source.Sound := by
  have inside := sound.value
  unfold mergeSources
  split
  · exact .pure (by simp)
  · exact .pure (by simpa using sound)
  · next items shape => exact .pure (Value.sound_list.mp (shape ▸ inside))
  · exact mismatch_yields

theorem spliceFields_yields {node : Node} (sound : node.Sound) :
    (spliceFields node).Yields fun fields => ∀ field ∈ fields, field.2.Sound := by
  have inside := sound.value
  unfold spliceFields
  split
  · exact .pure (by simp)
  · next fields shape => exact .pure (Value.sound_map.mp (shape ▸ inside))
  · exact mismatch_yields

theorem sound_override {fields later : Fields Node} (first : ∀ field ∈ fields, field.2.Sound)
    (second : ∀ field ∈ later, field.2.Sound) :
    ∀ field ∈ Fields.override fields later, field.2.Sound := fun field member =>
  (Fields.mem_override member).elim (first field) (second field)

/-- A sound map with other sound fields is sound. -/
theorem Node.Sound.withFields {node : Node} {fields : Fields Node} (sound : node.Sound)
    (isMap : ∃ fields, node.value = .map fields) (inside : ∀ field ∈ fields, field.2.Sound) :
    (node.withValue (.map fields)).Sound := by
  obtain ⟨old, shape⟩ := isMap
  have shown := (Node.sound_iff.mp sound).1
  rw [shape] at shown
  exact Node.sound_iff.mpr ⟨shown, Value.sound_map.mpr inside⟩

theorem merge_sound : Control.merge.Sound := by
  intro deeper resolve context _ _ sound
  refine (mergeSources_yields sound.value).bind fun sources known => ?_
  refine (Eval.Yields.mapM fun source member => spliceFields_yields (known source member)).bind
    fun spliced inside => ?_
  have merged : ∀ field ∈ spliced.foldl Fields.override [], field.2.Sound :=
    List.foldlRecOn spliced Fields.override (motive := fun all => ∀ field ∈ all, field.2.Sound)
      (by simp) fun all known fields member => sound_override known (inside fields member)
  refine .pure ?_
  rintro _ ⟨⟩
  exact sound.node.withFields sound.isMap (sound_override merged sound.fields)

/-! ### Loops -/

/-- The elements of a variable are sound, and so are their indices. -/
def LoopVariable.Sound (v : LoopVariable) : Prop := ∀ e ∈ v.elements, e.1.Sound ∧ e.2.Sound

theorem loopVariable_yields {name : String} {sequence : Node} (sound : sequence.Sound) :
    (loopVariable name sequence).Yields LoopVariable.Sound := by
  have inside := sound.value
  unfold loopVariable
  simp only
  split
  · exact .pure (by simp [LoopVariable.Sound])
  · next items shape =>
    rw [shape, Value.sound_list] at inside
    refine .pure fun e member => ?_
    obtain ⟨index, inRange, rfl⟩ := List.mem_mapIdx.mp member
    exact ⟨Node.sound_plain (Value.sound_int _), inside _ (List.getElem_mem _)⟩
  · next fields shape =>
    rw [shape, Value.sound_map] at inside
    refine .pure fun e member => ?_
    obtain ⟨field, known, rfl⟩ := List.mem_map.mp member
    exact ⟨Node.sound_plain (Value.sound_string _), inside field known⟩
  · exact mismatch_yields

theorem loopVariables_yields {spec : Node} (sound : spec.Sound) :
    (loopVariables spec).Yields fun loops => ∀ v ∈ loops, v.Sound := by
  have inside := sound.value
  unfold loopVariables
  split
  · next fields shape =>
    rw [shape, Value.sound_map] at inside
    exact Eval.Yields.mapM fun field member => loopVariable_yields (inside field member)
  · next items shape =>
    rw [shape, Value.sound_list] at inside
    refine Eval.Yields.mapM fun item member => ?_
    split
    · next name sequence _ found =>
      exact loopVariable_yields (Node.Sound.field? (inside item member) found)
    · exact .fail
  · exact mismatch_yields

/-- Rows of sound variables name sound nodes. -/
theorem sound_loopRows {loops : List LoopVariable} (sound : ∀ v ∈ loops, v.Sound) :
    ∀ row ∈ loopRows loops, ∀ field ∈ row, field.2.Sound := by
  refine List.foldlRecOn loops _
    (motive := fun rows : List (Fields Node) => ∀ row ∈ rows, ∀ field ∈ row, field.2.Sound)
    (by simp) fun rows known v member row inRows field inRow => ?_
  obtain ⟨before, inBefore, extended⟩ := List.mem_flatMap.mp inRows
  obtain ⟨element, inElements, rfl⟩ := List.mem_map.mp extended
  obtain ⟨index, value⟩ := sound v member element inElements
  rcases Fields.mem_insert inRow with rfl | older
  · exact index
  · rcases Fields.mem_insert older with rfl | oldest
    · exact value
    · exact known before inBefore field oldest

section

variable {deeper : Deeper} {body : Node} {mapkey : Option Node} {binding : Binding}
  (below : deeper.Sound) (sound : body.Sound) (key : ∀ node ∈ mapkey, node.Sound)
  (place : binding.Sound)

include below sound key place

theorem loopRow_yields {row : Fields Node} (named : ∀ field ∈ row, field.2.Sound) :
    (loopRow deeper body mapkey binding row).Yields fun result => result.2.Sound := by
  have locals : ∀ names ∈ some row, ∀ field ∈ names, field.2.Sound := by
    rintro _ ⟨⟩
    exact named
  unfold loopRow
  refine (below.flowNested body binding (some row) none sound place locals (by simp)).bind
    fun value known => ?_
  simp only
  split
  · exact .pure known
  · next mapkey =>
    refine (below.flowNested mapkey binding (some row) none (key mapkey rfl) place locals
      (by simp)).bind fun _ _ => ?_
    split
    · exact .pure known
    · exact mismatch_yields

theorem loopResults_yields {loops : List LoopVariable} {index : Nat} {rows : List (Fields Node)}
    (named : ∀ row ∈ rows, ∀ field ∈ row, field.2.Sound) :
    (loopResults deeper body mapkey binding loops index rows).Yields fun (results, _) =>
      ∀ result ∈ results, result.2.Sound := by
  induction rows generalizing index with
  | nil =>
    rw [loopResults]
    exact .pure (by simp)
  | cons row rest ih =>
    rw [loopResults]
    refine (loopRow_yields below sound key place (named row List.mem_cons_self)).outcome.bind
      fun outcome known => ?_
    refine (ih fun row member => named row (List.mem_cons_of_mem _ member)).bind
      fun ⟨results, failures⟩ others => ?_
    simp only
    split
    · exact .pure (List.forall_mem_cons.mpr ⟨known, others⟩)
    · exact .pure others

end

theorem sound_loopNode {source : String} {keyed : Bool} {results : List (Option String × Value)}
    (sound : ∀ result ∈ results, result.2.Sound) : (loopNode source keyed results).Sound := by
  unfold loopNode
  split
  · refine Node.sound_plain (sound_ofList fun entry member => ?_)
    obtain ⟨result, known, made⟩ := List.mem_filterMap.mp member
    obtain ⟨key, -, rfl⟩ := Option.map_eq_some_iff.mp made
    exact Node.sound_plain (sound result known)
  · refine Node.sound_plain (Value.sound_list.mpr fun item member => ?_)
    obtain ⟨result, known, rfl⟩ := List.mem_map.mp member
    exact Node.sound_plain (sound result known)

omit [Lineage] in
theorem isExplained_aggregate (message : String) (failures : List Unresolved) (sequence : Bool) :
    (aggregate message failures sequence).IsExplained := by
  unfold aggregate Unresolved.IsExplained
  simp only
  split <;> rfl

theorem loop_sound : Control.loop.Sound := by
  intro deeper resolve context below _ sound
  refine (loopVariables_yields sound.value).bind fun loops known => ?_
  split
  · exact .fail
  · next body given =>
    refine (loopResults_yields below (sound.option? given) (fun node found => sound.option? found)
      sound.place (sound_loopRows known)).bind fun ⟨results, failures⟩ inside => ?_
    simp only
    split
    · refine .pure ?_
      rintro _ ⟨⟩
      exact sound_loopNode inside
    · exact .throw (isExplained_aggregate _ _ _)

/-! ### The control of a map -/

/-- The standard controls yield sound nodes. -/
theorem Control.standard_sound : ∀ entry ∈ Control.standard, Control.Sound entry.2 := by
  simp only [Control.standard, List.forall_mem_cons]
  exact ⟨loop_sound, conditional_sound, merge_sound, switch_sound, type_sound, by simp⟩

/-- The controls of the engine yield sound nodes. -/
def Engine.ControlsSound (engine : Engine) : Prop :=
  ∀ name control, Fields.find? engine.controls name = some control → control.Sound

omit [Lineage] in
theorem isExplained_toUnresolved (r : Report) (message : String) :
    (r.toUnresolved message).IsExplained := by
  unfold Report.toUnresolved Unresolved.IsExplained
  simp only
  split <;> rfl

theorem completeInput_yields {defaultKey : String} {written : Node} {flowed : Option Node}
    (sound : ∀ node ∈ flowed, node.Sound) :
    (completeInput defaultKey written flowed).Yields Node.Sound := by
  unfold completeInput
  split
  · exact .pure (Node.sound_plain Value.sound_nil)
  · next node =>
    split
    · exact .pure (sound node rfl)
    · simp only
      split
      · exact .throw rfl
      · exact .throw (isExplained_toUnresolved _ _)

section

variable {deeper : Deeper} {resolve : Node → Binding → Eval Node} {node : Node}
  {fields : Fields Node} {binding : Binding} (below : deeper.Sound)
  (resolves : ResolvesSoundly resolve) (inside : ∀ field ∈ fields, field.2.Sound)
  (place : binding.Sound)

include resolves inside place in
theorem controlOptions_yields {name : String} {specs : List OptionSpec} :
    (controlOptions resolve name fields binding specs).Yields fun options =>
      ∀ field ∈ options, field.2.Sound := by
  induction specs with
  | nil =>
    rw [controlOptions]
    exact .pure (by simp)
  | cons spec rest ih =>
    rw [controlOptions]
    simp only
    split
    · next option found =>
      have written := inside _ (Fields.mem_of_find? found)
      have entry (node : Node) (known : node.Sound) :
          (do return (spec.name, node) :: (← controlOptions resolve name fields binding rest) :
            Eval (Fields Node)).Yields fun options => ∀ field ∈ options, field.2.Sound :=
        ih.bind fun options others => .pure (List.forall_mem_cons.mpr ⟨known, others⟩)
      split
      · rw [pure_bind]
        exact entry option written
      · exact (resolves option _ written (place.child _)).bind fun node known => entry node known
    · split
      · exact .fail
      · exact ih

include inside in
theorem ownFields_yields {name : String} {specs : List OptionSpec} :
    (ownFields name specs fields).Yields fun own => ∀ field ∈ own, field.2.Sound := by
  induction fields with
  | nil =>
    rw [ownFields]
    exact .pure (by simp)
  | cons field rest ih =>
    obtain ⟨key, child⟩ := field
    have first := inside _ List.mem_cons_self
    have others := ih fun field member => inside field (List.mem_cons_of_mem _ member)
    rw [ownFields]
    split
    · exact others.bind fun own known => .pure (List.forall_mem_cons.mpr ⟨first, known⟩)
    · split
      · exact others.bind fun own known => .pure (List.forall_mem_cons.mpr ⟨first, known⟩)
      · split
        · exact others
        · exact .fail

include below resolves inside place

theorem dispatchControl_yields {name : String} {control : Control} (known : control.Sound)
    (sound : node.Sound) (isMap : ∃ fields, node.value = .map fields) :
    (dispatchControl deeper resolve name control node fields binding).Yields fun result =>
      ∀ node ∈ result, node.Sound := by
  have written : ((Fields.find? fields (controlKey name)).getD (.plain .nil node.source)).Sound := by
    cases found : Fields.find? fields (controlKey name) with
    | none => exact Node.sound_plain Value.sound_nil
    | some input => exact inside _ (Fields.mem_of_find? found)
  unfold dispatchControl
  refine (resolves _ _ written (place.child _)).bind fun value input => ?_
  refine (controlOptions_yields resolves inside place).bind fun options given => ?_
  refine (ownFields_yields inside).bind fun own others => ?_
  exact known deeper resolve _ below resolves
    ⟨input, sound, isMap, others, fun field member => given field (Fields.mem_ofList member), place⟩

theorem runControl_yields {engine : Engine} {run : Eval (Option Node)}
    (controls : engine.ControlsSound) (sound : node.Sound)
    (isMap : ∃ fields, node.value = .map fields)
    (carried : runControl engine deeper resolve node fields binding = some run) :
    run.Yields fun result => ∀ node ∈ result, node.Sound := by
  unfold runControl at carried
  split at carried
  · cases carried
  · next first rest _ =>
    cases carried
    split
    · exact .fail
    · next name control known =>
      have registered : Fields.find? engine.controls name = some control := by
        have member : (name, control) ∈ (first :: rest).filterMap fun name =>
            (Fields.find? engine.controls name).map fun control => (name, control) :=
          known ▸ List.mem_cons_self
        obtain ⟨other, -, found⟩ := List.mem_filterMap.mp member
        obtain ⟨c, known, same⟩ := Option.map_eq_some_iff.mp found
        cases same
        exact known
      exact dispatchControl_yields below resolves inside place (controls name control registered)
        sound isMap
    · exact .fail

end

end Cascade
