import Cascade.Evaluation.Invoke
import Cascade.Evaluation.Standard
import Cascade.Proofs.Diagnostics

/-!
# Evaluation keeps diagnostics visible

At a place whose scope is sound, an expression evaluates to a sound value or to an outcome that is
explained, as long as the calls that lead one level deeper do so and as long as the functions of the
engine do. The standard functions do.

## Main definitions

* `Binding.Sound`, `Function.Sound`, `Deeper.Sound`.

## Main statements

* `evaluate_sound`: evaluation yields sound values.
* `Standard.functions_sound`: so do the standard functions.
* `invokeLambda_sound`: and calls of lambdas.
-/

namespace Cascade

open Eval

variable [Lineage]

/-! ### Places -/

/-- What names can mean at a place is sound. -/
def Binding.Sound (b : Binding) : Prop := b.scope.Sound

theorem Scope.Sound.layered {scope : Scope} {names : Fields Node} (sound : scope.Sound)
    (named : ∀ field ∈ names, field.2.Sound) : (scope.layered names).Sound := by
  obtain ⟨admitted, document, locals, outer⟩ := Scope.sound_iff.mp sound
  refine Scope.sound_iff.mpr ⟨admitted, document, fun layer member => ?_, outer⟩
  rcases List.mem_cons.mp member with rfl | known
  · exact named
  · exact locals layer known

namespace Binding.Sound

variable {b : Binding} {defaultKey : String}

theorem admitted (sound : b.Sound) : Lineage.admits b.document.id b.scope.outer :=
  (Scope.sound_iff.mp sound).1

theorem document (sound : b.Sound) : b.document.Sound := (Scope.sound_iff.mp sound).2.1

theorem root (sound : b.Sound) : b.document.root.Sound :=
  (Document.sound_iff.mp sound.document).1

theorem stubs (sound : b.Sound) : ∀ stub ∈ b.document.stubs, stub.Sound :=
  (Document.sound_iff.mp sound.document).2.1

theorem stubValue? (sound : b.Sound) {path : List String} {node : Node}
    (found : b.stubValue? path defaultKey = some node) : node.Sound := by
  exact inherited_sound.toInherited.stubValue? sound.stubs found

theorem overrideValue? (sound : b.Sound) {node : Node}
    (found : b.overrideValue? defaultKey = some node) : node.Sound := by
  exact inherited_sound.toInherited.overrideValue? sound.stubs found

theorem stateValue? (sound : b.Sound) {node : Node}
    (found : b.stateValue? defaultKey = some node) : node.Sound := by
  exact inherited_sound.toInherited.stateValue? (Document.sound_iff.mp sound.document).2.2 found

end Binding.Sound

/-- The calls that lead one level deeper yield sound values. -/
structure Deeper.Sound (deeper : Deeper) : Prop where
  invoke : ∀ l args caller, l.Sound → (∀ argument ∈ args, argument.Sound) → caller.Sound →
    (deeper.invoke l args caller).Yields Resolved.Sound
  flowNested : ∀ node binding locals stubs, node.Sound → binding.Sound →
    (∀ names ∈ locals, ∀ field ∈ names, field.2.Sound) →
    (∀ trees ∈ stubs, ∀ stub ∈ trees, stub.Sound) →
    (deeper.flowNested node binding locals stubs).Yields Resolved.Sound

/-- Applied to sound values, the function yields sound values. -/
def Function.Sound (function : Function) : Prop :=
  ∀ deeper args binding, deeper.Sound → (∀ value ∈ args, value.Sound) → binding.Sound →
    (function deeper args binding).Yields Resolved.Sound

/-! ### Navigation and operators -/

omit [Lineage] in
theorem mismatch_yields {α : Type} {P : α → Prop} {expected : String} {found : Value} :
    (mismatch expected found : Eval α).Yields P := Yields.fail

omit [Lineage] in
theorem expectInt_yields (value : Value) : (expectInt value).Yields fun _ => True := by
  unfold expectInt
  split
  · exact .pure trivial
  · exact mismatch_yields

theorem expectLambda_yields {value : Value} (sound : value.Sound) :
    (expectLambda value).Yields Lambda.Sound := by
  unfold expectLambda
  split
  · exact .pure (Value.sound_lambda.mp sound)
  · exact mismatch_yields

theorem expectList_yields {value : Value} (sound : value.Sound) :
    (expectList value).Yields fun items => ∀ item ∈ items, item.Sound := by
  unfold expectList
  split
  · exact .pure (Value.sound_list.mp sound)
  · exact mismatch_yields

theorem expectElements_yields {value : Value} (sound : value.Sound) :
    (expectElements value).Yields fun elements => ∀ element ∈ elements, element.Sound := by
  unfold expectElements
  split
  · next fields =>
    refine .pure fun element member => ?_
    obtain ⟨field, known, rfl⟩ := List.mem_map.mp member
    exact Value.sound_map.mp sound field known
  · exact expectList_yields sound

omit [Lineage] in
theorem indexPath_yields (value : Value) : (indexPath value).Yields fun _ => True := by
  unfold indexPath
  split
  · exact .pure trivial
  · exact .pure trivial
  · split
    · exact .pure trivial
    · exact .fail
  · exact mismatch_yields

theorem descend_yields {defaultKey : String} {node : Node} {seen path : List String}
    (sound : node.Sound) : (descend defaultKey node seen path).Yields Node.Sound := by
  induction path generalizing node seen with
  | nil => exact .pure sound
  | cons segment rest ih =>
    unfold descend
    split
    · next next step => exact ih (Node.Sound.stepBy? sound step)
    · exact .fail

theorem navigate_yields {defaultKey source : String} {value : Value} {path : List String}
    (sound : value.Sound) : (navigate defaultKey source value path).Yields Resolved.Sound :=
  (descend_yields (Node.sound_plain sound)).bind fun _ node =>
    .ofOutcome node.explains_nodeValue

theorem sliceItems_yields {items : List Node} {start stop : Option Int64}
    (sound : ∀ item ∈ items, item.Sound) : (sliceItems items start stop).Yields Resolved.Sound := by
  rw [sliceItems]
  split
  · exact .pure (Value.sound_list.mpr fun item member =>
      sound item (List.mem_of_mem_take (List.mem_of_mem_drop member)))
  · exact .fail

theorem sound_of_arithmetic {op : ArithmeticOp} {lhs rhs value : Value}
    (computed : arithmetic op lhs rhs = .ok value) : value.Sound := by
  rcases eq_of_arithmetic computed with ⟨n, rfl⟩ | ⟨x, rfl⟩ | ⟨a, rfl⟩
  · exact Value.sound_int n
  · exact Value.sound_float x
  · exact Value.sound_string _

theorem sound_of_concatenate {lhs rhs value : Value} {source : String} (left : lhs.Sound)
    (right : rhs.Sound) (joined : concatenate lhs rhs source = .ok value) : value.Sound := by
  unfold concatenate at joined
  split at joined
  · cases joined
    rw [Value.sound_list] at *
    exact fun item member => (List.mem_append.mp member).elim (left item) (right item)
  · cases joined
  · cases joined
    rw [Value.sound_list] at *
    intro item member
    rcases List.mem_append.mp member with known | new
    · exact left item known
    · obtain rfl := List.mem_singleton.mp new
      exact Node.sound_plain right
  · cases joined
    rw [Value.sound_map] at *
    exact fun field member => (Fields.mem_override member).elim (left field) (right field)
  · split at joined
    · cases joined
      simp [Value.Sound]
    · cases joined

/-! ### Standard functions -/

namespace Standard

theorem answer_yields {value : Value} (sound : value.Sound) :
    (answer value).Yields Resolved.Sound := .pure sound

omit [Lineage] in
theorem checkArity_yields {name : String} {args : List Value} {least : Nat} {most : Option Nat} :
    (checkArity name args least most).Yields fun _ => True := by
  unfold checkArity
  simp only
  split
  · exact .fail
  · split
    · split
      · exact .fail
      · exact .pure trivial
    · exact .pure trivial

theorem sound_arg {args : List Value} (sound : ∀ value ∈ args, value.Sound) (i : Nat) :
    (arg args i).Sound := by
  rw [arg]
  cases found : args[i]? with
  | none => exact Value.sound_nil
  | some value => exact sound value (List.mem_of_getElem? found)

omit [Lineage] in
theorem text_yields (value : Value) : (text value).Yields fun _ => True := by
  unfold text
  split
  · exact .pure trivial
  · exact mismatch_yields

theorem fieldsOf_yields {value : Value} (sound : value.Sound) :
    (fieldsOf value).Yields fun fields => ∀ field ∈ fields, field.2.Sound := by
  unfold fieldsOf
  cases value with
  | map fields => exact .pure (Value.sound_map.mp sound)
  | _ => exact mismatch_yields

theorem sound_listOf {values : List Value} {binding : Binding}
    (sound : ∀ value ∈ values, value.Sound) : (listOf values binding).Sound := by
  rw [listOf, Value.sound_list]
  intro item member
  obtain ⟨value, known, rfl⟩ := List.mem_map.mp member
  exact Node.sound_plain (sound value known)

theorem sound_listOf_strings {texts : List String} {binding : Binding} :
    (listOf (texts.map .string) binding).Sound := by
  refine sound_listOf fun value member => ?_
  obtain ⟨s, -, rfl⟩ := List.mem_map.mp member
  exact Value.sound_string s

theorem length_sound : Function.Sound length := by
  intro deeper args binding _ _ _
  refine checkArity_yields.bind fun _ _ => ?_
  split
  · exact answer_yields (Value.sound_int _)
  · exact answer_yields (Value.sound_int _)
  · exact answer_yields (Value.sound_int _)
  · exact mismatch_yields

theorem keys_sound : Function.Sound keys := by
  intro deeper args binding _ sound _
  refine checkArity_yields.bind fun _ _ => ?_
  refine (fieldsOf_yields (sound_arg sound 0)).bind fun fields _ => ?_
  exact answer_yields sound_listOf_strings

theorem values_sound : Function.Sound values := by
  intro deeper args binding _ sound _
  refine checkArity_yields.bind fun _ _ => ?_
  refine (fieldsOf_yields (sound_arg sound 0)).bind fun fields inside => ?_
  refine answer_yields (Value.sound_list.mpr fun item member => ?_)
  obtain ⟨field, known, rfl⟩ := List.mem_map.mp member
  exact inside field known

omit [Lineage] in
theorem parts_yields (value : Value) : (parts value).Yields fun _ => True := by
  unfold parts
  split
  · exact (Eval.Yields.mapM (Q := fun _ => True) fun item _ => text_yields item.value).mono
      fun _ _ => trivial
  · exact (text_yields _).bind fun _ _ => .pure trivial

theorem join_sound : Function.Sound join := by
  intro deeper args binding _ _ _
  refine checkArity_yields.bind fun _ _ => ?_
  refine (text_yields _).bind fun _ _ => ?_
  refine (Eval.Yields.mapM (Q := fun _ => True) fun value _ => parts_yields value).bind
    fun _ _ => ?_
  exact answer_yields (Value.sound_string _)

theorem split_sound : Function.Sound split := by
  intro deeper args binding _ _ _
  refine checkArity_yields.bind fun _ _ => ?_
  refine (text_yields _).bind fun _ _ => ?_
  refine (text_yields _).bind fun _ _ => ?_
  exact answer_yields sound_listOf_strings

theorem trim_sound : Function.Sound trim := by
  intro deeper args binding _ _ _
  refine checkArity_yields.bind fun _ _ => ?_
  refine (text_yields _).bind fun _ _ => ?_
  split
  · exact (text_yields _).bind fun _ _ => answer_yields (Value.sound_string _)
  · exact answer_yields (Value.sound_string _)

theorem upper_sound : Function.Sound upper := by
  intro deeper args binding _ _ _
  refine checkArity_yields.bind fun _ _ => ?_
  exact (text_yields _).bind fun _ _ => answer_yields (Value.sound_string _)

theorem lower_sound : Function.Sound lower := by
  intro deeper args binding _ _ _
  refine checkArity_yields.bind fun _ _ => ?_
  exact (text_yields _).bind fun _ _ => answer_yields (Value.sound_string _)

theorem contains_sound : Function.Sound contains := by
  intro deeper args binding _ _ _
  refine checkArity_yields.bind fun _ _ => ?_
  simp only
  split
  · exact answer_yields (Value.sound_bool _)
  · exact (text_yields _).bind fun _ _ => answer_yields (Value.sound_bool _)
  · exact (text_yields _).bind fun _ _ => answer_yields (Value.sound_bool _)
  · exact mismatch_yields

omit [Lineage] in
theorem fillPattern_yields (pattern : List Char) (args : List Value) :
    (fillPattern pattern args).Yields fun _ => True := by
  fun_induction fillPattern pattern args with
  | case1 => exact .pure trivial
  | case2 => exact .pure trivial
  | case3 rest args ih => exact ih.bind fun _ _ => .pure trivial
  | case4 => exact .fail
  | case5 => exact mismatch_yields
  | case6 =>
    rename_i ih
    exact ih.bind fun _ _ => .pure trivial
  | case7 => exact .fail
  | case8 c rest args _ _ _ ih => exact ih.bind fun _ _ => .pure trivial

theorem format_sound : Function.Sound format := by
  intro deeper args binding _ _ _
  refine checkArity_yields.bind fun _ _ => ?_
  refine (text_yields _).bind fun _ _ => ?_
  exact (fillPattern_yields _ _).bind fun _ _ => answer_yields (Value.sound_string _)

theorem numbers_yields {name : String} {args : List Value} (sound : ∀ value ∈ args, value.Sound) :
    (numbers name args).Yields fun items => ∀ item ∈ items, item.Sound := by
  unfold numbers
  extract_lets items
  have inside : ∀ item ∈ items, item.Sound := by
    unfold items
    split
    · intro item member
      obtain ⟨node, known, rfl⟩ := List.mem_map.mp member
      exact (Value.sound_list.mp (sound _ List.mem_cons_self) node known).value
    · exact sound
  split
  · exact .fail
  · split
    · exact mismatch_yields
    · exact .pure inside

omit [Lineage] in
/-- The extreme of some values is one of them. -/
theorem mem_of_extreme {better : Float → Float → Bool} {items : List Value} {x : Float}
    {value : Value} (found : extreme better items = some (x, value)) : value ∈ items := by
  have kept : ∀ best ∈ extreme better items, best.2 ∈ items := by
    unfold extreme
    refine List.foldlRecOn (motive := fun best : Option (Float × Value) =>
      ∀ next ∈ best, next.2 ∈ items) items _ (fun _ => nofun) ?_
    intro best known item member next chosen
    simp only at chosen
    split at chosen
    · cases chosen
      exact member
    · split at chosen
      · cases chosen
        exact member
      · exact known next chosen
  exact kept _ found

theorem sound_extreme {better : Float → Float → Bool} {items : List Value}
    (sound : ∀ item ∈ items, item.Sound) :
    (((extreme better items).map Prod.snd).getD .nil).Sound := by
  cases found : extreme better items with
  | none => exact Value.sound_nil
  | some best => exact sound best.2 (mem_of_extreme found)

theorem min_sound : Function.Sound min := fun _ _ _ _ sound _ =>
  (numbers_yields sound).bind fun _ items => answer_yields (sound_extreme items)

theorem max_sound : Function.Sound max := fun _ _ _ _ sound _ =>
  (numbers_yields sound).bind fun _ items => answer_yields (sound_extreme items)

theorem error_sound : Function.Sound error := fun _ _ _ _ _ _ => .fail

theorem typeOf_sound : Function.Sound typeOf := fun _ _ _ _ _ _ =>
  checkArity_yields.bind fun _ _ => answer_yields (Value.sound_string _)

theorem lambdaOf_yields {value : Value} (sound : value.Sound) :
    (lambdaOf value).Yields Lambda.Sound := by
  unfold lambdaOf
  split
  · exact .pure (Value.sound_lambda.mp sound)
  · exact mismatch_yields

theorem elements_yields {value : Value} (sound : value.Sound) :
    (elements value).Yields fun elements => ∀ e ∈ elements, e.1.Sound ∧ e.2.Sound := by
  unfold elements
  split
  · next items =>
    refine .pure fun e member => ?_
    obtain ⟨index, inRange, rfl⟩ := List.mem_mapIdx.mp member
    exact ⟨Value.sound_int _, Value.sound_list.mp sound _ (List.getElem_mem _)⟩
  · next fields =>
    refine .pure fun e member => ?_
    obtain ⟨field, known, rfl⟩ := List.mem_map.mp member
    exact ⟨Value.sound_string _, Value.sound_map.mp sound field (List.mem_of_mem_filter known)⟩
  · exact mismatch_yields

theorem sound_elementArguments {l : Lambda} {key : Value} {element : Node} {binding : Binding}
    (index : key.Sound) (sound : element.Sound) :
    ∀ argument ∈ elementArguments l key element binding, argument.Sound := by
  rw [elementArguments]
  split <;> simp [ArgumentValue.Sound, sound, Node.sound_plain index]

theorem map_sound : Function.Sound map := by
  intro deeper args binding below sound place
  refine checkArity_yields.bind fun _ _ => ?_
  refine (lambdaOf_yields (sound_arg sound 1)).bind fun l lambda => ?_
  refine (elements_yields (sound_arg sound 0)).bind fun elements inside => ?_
  refine (Eval.Yields.filterMapM (Q := Node.Sound) fun e member => ?_).bind fun results known =>
    answer_yields (Value.sound_list.mpr known)
  obtain ⟨index, element⟩ := inside e member
  refine (below.invoke l _ binding lambda (sound_elementArguments index element) place).bind
    fun resolved result => .pure ?_
  split
  · simp
  · rintro node ⟨⟩
    exact Node.sound_plain result

theorem select_sound : Function.Sound select := by
  intro deeper args binding below sound place
  refine checkArity_yields.bind fun _ _ => ?_
  refine (lambdaOf_yields (sound_arg sound 1)).bind fun l lambda => ?_
  have accepts : ∀ (key : Value) (element : Node), key.Sound → element.Sound →
      (do
        let resolved ← deeper.invoke l (elementArguments l key element binding) binding
        return resolved.value.isTruthy : Eval Bool).Yields fun _ => True := by
    intro key element index element
    refine (below.invoke l _ binding lambda (sound_elementArguments index element) place).bind
      fun _ _ => .pure trivial
  have collection := sound_arg sound 0
  simp only
  split
  · next fields shape =>
    rw [shape, Value.sound_map] at collection
    refine (Eval.Yields.filterM fun field member => ?_).bind fun selected known =>
      answer_yields (Value.sound_map.mpr fun field member => collection field (known field member))
    split
    · exact .pure trivial
    · exact accepts _ _ (Value.sound_string _) (collection field member)
  · next other shape =>
    refine (elements_yields collection).bind fun elements inside => ?_
    refine (Eval.Yields.filterM fun e member => ?_).bind fun selected known =>
      answer_yields (Value.sound_list.mpr fun item member => ?_)
    · exact accepts _ _ (inside e member).1 (inside e member).2
    · obtain ⟨e, chosen, rfl⟩ := List.mem_map.mp member
      exact (inside e (known e chosen)).2

theorem sum_sound : Function.Sound sum := by
  intro deeper args binding below sound place
  refine checkArity_yields.bind fun _ _ => ?_
  split
  · refine (elements_yields (sound_arg sound 0)).bind fun elements _ => ?_
    have start : (args[1]?.getD (Value.int 0)).Sound := by
      cases found : args[1]? with
      | none => exact Value.sound_int 0
      | some value => exact sound value (List.mem_of_getElem? found)
    refine (Eval.Yields.foldlM (Q := Value.Sound) start fun total e _ _ => ?_).bind
      fun total known => answer_yields known
    exact .ofFailing fun value computed => sound_of_arithmetic computed
  · next step known =>
    refine (lambdaOf_yields (sound step (List.mem_of_getElem? known))).bind fun l lambda => ?_
    refine (elements_yields (sound_arg sound 0)).bind fun elements inside => ?_
    refine (Eval.Yields.foldlM (Q := Node.Sound) (Node.sound_plain (sound_arg sound 1))
      fun total e before member => ?_).bind fun total known => answer_yields known.value
    refine (below.invoke l _ binding lambda ?_ place).bind fun resolved result =>
      .pure (Node.sound_plain result)
    simp [ArgumentValue.Sound, before, (inside e member).2]

theorem uniq_sound : Function.Sound uniq := by
  intro deeper args binding _ sound _
  refine checkArity_yields.bind fun _ _ => ?_
  have collection := sound_arg sound 0
  split
  · next items shape =>
    rw [shape, Value.sound_list] at collection
    refine answer_yields (Value.sound_list.mpr ?_)
    refine List.foldlRecOn items _ (motive := fun kept : List Node => ∀ item ∈ kept, item.Sound)
      (by simp) ?_
    intro kept known item member other inKept
    split at inKept
    · exact known other inKept
    · rcases List.mem_append.mp inKept with before | new
      · exact known other before
      · obtain rfl := List.mem_singleton.mp new
        exact collection other member
  · exact mismatch_yields

/-- The standard functions yield sound values. -/
theorem functions_sound : ∀ entry ∈ functions, Function.Sound entry.2 := by
  simp only [functions, List.forall_mem_cons]
  exact ⟨contains_sound, error_sound, format_sound, join_sound, keys_sound, length_sound,
    lower_sound, map_sound, max_sound, min_sound, select_sound, split_sound, sum_sound, trim_sound,
    typeOf_sound, uniq_sound, upper_sound, values_sound, by simp⟩

end Standard

/-! ### Intrinsic calls -/

/-- The evaluation that an argument stands for yields sound values. -/
def Delayed.Sound (d : Delayed) : Prop :=
  ∀ binding : Binding, binding.Sound → (d.run binding).Yields Resolved.Sound

section

variable {engine : Engine} {deeper : Deeper} {binding : Binding} {args : List Delayed}
  (below : deeper.Sound) (place : binding.Sound) (sound : ∀ d ∈ args, d.Sound)

omit [Lineage] in
theorem wrongCount_yields {α : Type} {P : α → Prop} {id : Intrinsic} {expected got : Nat} :
    (wrongCount id expected got : Eval α).Yields P := .fail

theorem observe_yields {e : Eval Resolved} (yields : e.Yields Resolved.Sound) :
    (observe e).Yields fun _ => True := by
  refine yields.outcome.bind fun outcome known => ?_
  split
  · exact .pure trivial
  · exact .pure trivial
  · split
    · exact .pure trivial
    · exact .throw known

theorem caught_yields {e : Eval Resolved} (yields : e.Yields Resolved.Sound) :
    (caught e).Yields fun result => result.1.Sound := by
  refine yields.outcome.bind fun outcome known => ?_
  split
  · exact .pure known
  · exact .pure Value.sound_nil
  · split
    · exact .pure Value.sound_nil
    · exact .throw known

theorem catchArguments_yields (sound : ∀ d ∈ args, d.Sound) :
    (catchArguments args).Yields fun (expr, handler) =>
      expr.Sound ∧ ∀ d ∈ handler, d.Sound := by
  unfold catchArguments
  split
  · exact .pure ⟨sound _ List.mem_cons_self, by simp⟩
  · exact .pure ⟨sound _ List.mem_cons_self, by simpa using sound _ (by simp)⟩
  · exact wrongCount_yields

theorem syncArguments_yields (sound : ∀ d ∈ args, d.Sound) :
    (syncArguments args).Yields fun (expr, condition, result, timeout) =>
      expr.Sound ∧ condition.Sound ∧ (∀ d ∈ result, d.Sound) ∧ ∀ d ∈ timeout, d.Sound := by
  unfold syncArguments
  split
  · exact .pure ⟨sound _ (by simp), sound _ (by simp), by simp, by simp⟩
  · exact .pure ⟨sound _ (by simp), sound _ (by simp), by simpa using sound _ (by simp), by simp⟩
  · exact .pure ⟨sound _ (by simp), sound _ (by simp), by simpa using sound _ (by simp),
      by simpa using sound _ (by simp)⟩
  · exact wrongCount_yields

include place

theorem runAsItIs_yields {d : Delayed} (sound : d.Sound) :
    (d.runAsItIs engine binding).Yields Resolved.Sound := by
  rw [Delayed.runAsItIs]
  split
  · exact .ofOutcome (Reference.explains_resolve place)
  · exact sound binding place

theorem lambdaArgument_yields {d : Delayed} (sound : d.Sound) :
    (lambdaArgument d binding).Yields Lambda.Sound :=
  (sound binding place).bind fun _ value => expectLambda_yields value

theorem documentArgument_yields {d : Delayed} (sound : d.Sound) :
    (documentArgument d binding).Yields Node.Sound := by
  refine (sound binding place).bind fun resolved known => ?_
  rw [Resolved.Sound] at known
  split
  · next body shape => exact .pure (Value.sound_template.mp (shape ▸ known))
  · next fields shape => exact .pure (Node.sound_plain (shape ▸ known))
  · exact mismatch_yields

include sound

theorem stubArgument_yields : (stubArgument args binding).Yields fun _ => True := by
  unfold stubArgument
  split
  · exact .pure trivial
  · split
    · exact .pure trivial
    · refine (sound _ List.mem_cons_self binding place).bind fun resolved _ => ?_
      split
      · exact .pure trivial
      · exact mismatch_yields
  · exact wrongCount_yields

theorem stubValue_yields : (stubValue engine args binding).Yields Resolved.Sound := by
  refine (stubArgument_yields place sound).bind fun path _ => ?_
  split
  · next node found =>
    exact .ofOutcome (Node.Sound.explains_nodeValue (Binding.Sound.stubValue? place found))
  · exact .fail

include below

theorem mergeDocuments_yields : (mergeDocuments deeper args binding).Yields Resolved.Sound := by
  unfold mergeDocuments
  split
  · exact .fail
  · next template stubs =>
    refine (documentArgument_yields place (sound _ List.mem_cons_self)).bind fun template known => ?_
    refine (Eval.Yields.mapM fun d member =>
      documentArgument_yields place (sound d (List.mem_cons_of_mem _ member))).bind
        fun trees inside => ?_
    refine below.flowNested template binding none (some trees) known place (by simp) ?_
    rintro _ ⟨⟩
    exact inside

theorem catchErrors_yields : (catchErrors deeper args binding).Yields Resolved.Sound := by
  refine (catchArguments_yields sound).bind fun ⟨expr, handler⟩ known => ?_
  refine (caught_yields (known.1 binding place)).bind fun ⟨value, error⟩ result => ?_
  simp only
  split
  · refine .pure (Value.sound_map.mpr ?_)
    simp [Node.sound_plain, result]
  · next handler =>
    refine (lambdaArgument_yields place (known.2 handler rfl)).bind fun l lambda => ?_
    refine below.invoke l _ binding lambda ?_ place
    simp [ArgumentValue.Sound, Node.sound_plain, result]

omit sound in
theorem attemptSync_yields {interval : Nat} {plan : SyncPlan} (expr : plan.expr.Sound)
    (condition : plan.condition.Sound) (result : ∀ l ∈ plan.result, l.Sound)
    (fuel attempt elapsed : Nat) :
    (attemptSync deeper interval plan binding fuel attempt elapsed).Yields Resolved.Sound := by
  induction fuel generalizing attempt elapsed with
  | zero => exact .exhausted
  | succ fuel ih =>
    refine (expr binding place).bind fun current known => ?_
    have argument : ∀ a ∈ [ArgumentValue.positional (.plain current.value binding.source)],
        a.Sound := by
      simp [ArgumentValue.Sound, Node.sound_plain (show current.value.Sound from known)]
    refine (below.invoke plan.condition _ binding condition argument place).bind
      fun satisfied _ => ?_
    split
    · split
      · next l given => exact below.invoke l _ binding (result l given) argument place
      · exact .pure known
    · split
      · exact .fail
      · exact ih _ _

theorem synchronize_yields : (synchronize engine deeper args binding).Yields Resolved.Sound := by
  refine (syncArguments_yields sound).bind fun ⟨expr, condition, result, timeout⟩ known => ?_
  obtain ⟨expression, test, final, limit⟩ := known
  refine (lambdaArgument_yields place test).bind fun condition predicate => ?_
  refine Eval.Yields.bind (P := fun result : Option Lambda => ∀ l ∈ result, l.Sound) ?_
    fun result chosen => ?_
  · cases result with
    | none => exact .pure (by simp)
    | some d =>
      refine Eval.Yields.map (Q := fun result : Option Lambda => ∀ l ∈ result, l.Sound)
        ((lambdaArgument_yields place (final d rfl)).mono ?_)
      rintro l lambda _ ⟨⟩
      exact lambda
  · refine Eval.Yields.bind (P := fun _ => True) ?_ fun seconds _ => ?_
    · unfold syncSeconds
      split
      · next d =>
        refine (limit d rfl binding place).bind fun resolved _ => ?_
        exact (expectInt_yields _).bind fun _ _ => .pure trivial
      · exact .pure trivial
    · exact attemptSync_yields below place expression predicate chosen _ _ _

omit below place in
theorem onlyArgument_yields {id : Intrinsic} : (onlyArgument id args).Yields Delayed.Sound := by
  unfold onlyArgument
  split
  · exact .pure (sound _ List.mem_cons_self)
  · exact wrongCount_yields

theorem Intrinsic.run_yields (id : Intrinsic) :
    (id.run engine deeper args binding).Yields Resolved.Sound := by
  unfold Intrinsic.run
  split
  · exact .fail
  · cases id with
    | merge => exact mergeDocuments_yields below place sound
    | catchError => exact catchErrors_yields below place sound
    | sync => exact synchronize_yields below place sound
    | valid =>
      refine (onlyArgument_yields sound).bind fun d known => ?_
      refine (observe_yields (runAsItIs_yields place known)).bind fun _ _ => ?_
      exact .pure (Value.sound_bool _)
    | defined =>
      refine (onlyArgument_yields sound).bind fun d known => ?_
      refine (observe_yields (runAsItIs_yields place known)).bind fun _ _ => ?_
      exact .pure (Value.sound_bool _)
    | require =>
      refine (onlyArgument_yields sound).bind fun d known => ?_
      refine (known binding place).bind fun resolved result => ?_
      split
      · exact .fail
      · exact .pure result
    | stub => exact stubValue_yields place sound

end

section

variable {engine : Engine} {binding : Binding} (place : binding.Sound)

include place

theorem MergeExpr.run_yields (m : MergeExpr) : (m.run engine binding).Yields Resolved.Sound := by
  unfold MergeExpr.run
  simp only
  split
  · next node found =>
    refine Eval.Yields.bind (.ofOutcome (Node.Sound.explains_nodeValue (Binding.Sound.stubValue? place found)))
      fun resolved result => ?_
    exact .pure (show resolved.value.Sound from result)
  · split
    · exact .fail
    · exact .pure Value.sound_nil

omit place in
theorem jobInstances_yields {defaultKey pool : String} {job : Node} (sound : job.Sound) :
    (jobInstances defaultKey pool job).Yields fun _ => True := by
  unfold jobInstances
  split
  · exact .pure trivial
  · split
    · exact .throw rfl
    · split
      · exact .pure trivial
      · split
        · exact .pure trivial
        · next node found =>
          refine Eval.Yields.bind (.ofOutcome (Node.Sound.explains_nodeValue (Node.Sound.field? sound found)))
            fun resolved _ => ?_
          exact (expectInt_yields _).bind fun _ _ => .pure trivial

omit place in
theorem sound_documentJobs {root : Node} (sound : root.Sound) :
    ∀ job ∈ documentJobs root, job.Sound := by
  have inside (value : Value) (found : (root.field? "jobs").map Node.value = some value) :
      value.Sound := by
    obtain ⟨jobs, known, rfl⟩ := Option.map_eq_some_iff.mp found
    exact (Node.Sound.field? sound known).value
  unfold documentJobs
  split
  · next items found => exact Value.sound_list.mp (inside _ found)
  · next fields found =>
    intro job member
    obtain ⟨field, known, rfl⟩ := List.mem_map.mp member
    exact Value.sound_map.mp (inside _ found) field known
  · simp

theorem autoSize_yields : (autoSize engine binding).Yields Resolved.Sound := by
  unfold autoSize
  split
  · refine Eval.Yields.bind (P := fun _ => True) ?_ fun total _ => .pure (Value.sound_int total)
    refine Eval.Yields.foldlM trivial fun total job _ member => ?_
    refine (jobInstances_yields (sound_documentJobs place.root job member)).bind fun _ _ => ?_
    exact .ofFailing fun _ _ => trivial
  · exact .fail

end

/-! ### Expressions -/

theorem Resolved.Sound.toNode {r : Resolved} {source : String} (sound : r.Sound) :
    (r.toNode source).Sound :=
  Node.sound_of_isClear sound (Info.isClear_annotate r.info {})

/-- The functions of the engine yield sound values. -/
def Engine.FunctionsSound (engine : Engine) : Prop :=
  ∀ name function, Fields.find? engine.functions name = some function → Function.Sound function

section

variable {engine : Engine} {deeper : Deeper} (functions : engine.FunctionsSound)
  (below : deeper.Sound)

omit functions in
include below in
theorem callFunction_yields {name : String} {function : Function} {args : List ArgumentValue}
    {binding : Binding} (known : Function.Sound function)
    (arguments : ∀ argument ∈ args, argument.Sound) (place : binding.Sound) :
    (callFunction deeper name function args binding).Yields Resolved.Sound := by
  refine Eval.Yields.bind (Eval.Yields.mapM (Q := Value.Sound) fun argument member => ?_)
    fun values sound => known deeper values binding below sound place
  have sound := arguments argument member
  split
  · exact .pure sound.value
  · exact .fail

theorem sound_rangeItems {numbers : List Int64} {source : String} :
    (Value.list (numbers.map fun n => .plain (.int n) source)).Sound := by
  rw [Value.sound_list]
  intro item member
  obtain ⟨n, -, rfl⟩ := List.mem_map.mp member
  exact Node.sound_plain (Value.sound_int n)

theorem sound_ofList {entries : List (String × Node)}
    (sound : ∀ entry ∈ entries, entry.2.Sound) : (Value.map (Fields.ofList entries)).Sound :=
  Value.sound_map.mpr fun field member => sound field (Fields.mem_ofList member)

omit functions below in
theorem consArgument_yields {e : Eval Resolved} {later : Eval (List ArgumentValue)}
    {make : Node → ArgumentValue} {source : String} (first : e.Yields Resolved.Sound)
    (others : later.Yields fun arguments => ∀ argument ∈ arguments, argument.Sound)
    (kept : ∀ node : Node, node.Sound → (make node).Sound) :
    (do
      let node := (← e).toNode source
      return make node :: (← later) : Eval (List ArgumentValue)).Yields
        fun arguments => ∀ argument ∈ arguments, argument.Sound := by
  refine first.bind fun resolved known => ?_
  exact others.bind fun arguments sound =>
    .pure (List.forall_mem_cons.mpr ⟨kept _ known.toNode, sound⟩)

include functions below

set_option linter.unusedSectionVars false in
mutual

/-- At a sound place, evaluation yields sound values. -/
theorem evaluate_yields : ∀ (e : Expr) (binding : Binding), binding.Sound →
    (evaluate engine deeper e binding).Yields Resolved.Sound
  | .nil, binding, place => by
    rw [evaluate]
    exact .pure Value.sound_nil
  | .undefined, binding, place => by
    rw [evaluate]
    exact .pure Value.sound_nil
  | .bool b, binding, place => by
    rw [evaluate]
    exact .pure (Value.sound_bool b)
  | .int n, binding, place => by
    rw [evaluate]
    exact .pure (Value.sound_int n)
  | .float x, binding, place => by
    rw [evaluate]
    exact .pure (Value.sound_float x)
  | .string s, binding, place => by
    rw [evaluate]
    exact .pure (Value.sound_string s)
  | .reference r, binding, place => by
    rw [evaluate]
    exact .ofOutcome (Reference.explains_resolve place)
  | .grouped inner, binding, place => by
    rw [evaluate]
    exact evaluate_yields inner binding place
  | .arithmetic op lhs rhs, binding, place => by
    rw [evaluate]
    refine (evaluate_yields lhs binding place).bind fun left _ => ?_
    refine (evaluate_yields rhs binding place).bind fun right _ => ?_
    exact Eval.Yields.bind (.ofFailing fun _ computed => sound_of_arithmetic computed)
      fun value sound => .pure sound
  | .concatenation lhs rhs, binding, place => by
    rw [evaluate]
    refine (evaluate_yields lhs binding place).bind fun left known => ?_
    refine (evaluate_yields rhs binding place).bind fun right known' => ?_
    exact Eval.Yields.bind (.ofFailing fun _ joined => sound_of_concatenate known known' joined)
      fun value sound => .pure sound
  | .comparison op lhs rhs, binding, place => by
    rw [evaluate]
    refine (evaluate_yields lhs binding place).bind fun left _ => ?_
    refine (evaluate_yields rhs binding place).bind fun right _ => ?_
    exact Eval.Yields.bind (P := fun _ => True) (.ofFailing fun _ _ => trivial) fun result _ =>
      .pure (Value.sound_bool result)
  | .fallback lhs rhs, binding, place => by
    rw [evaluate]
    refine (evaluate_yields lhs binding place).outcome.bind fun outcome known => ?_
    split
    · split
      · exact evaluate_yields rhs binding place
      · exact .pure known
    · exact evaluate_yields rhs binding place
    · exact .throw known
  | .logical op lhs rhs, binding, place => by
    rw [evaluate]
    refine (evaluate_yields lhs binding place).bind fun left _ => ?_
    simp only
    split
    · exact .pure (Value.sound_bool _)
    · exact .pure (Value.sound_bool _)
    · exact (evaluate_yields rhs binding place).bind fun _ _ => .pure (Value.sound_bool _)
  | .not operand, binding, place => by
    rw [evaluate]
    exact (evaluate_yields operand binding place).bind fun _ _ => .pure (Value.sound_bool _)
  | .conditional condition onTrue onFalse, binding, place => by
    rw [evaluate]
    refine (evaluate_yields condition binding place).bind fun _ _ => ?_
    split
    · exact evaluate_yields onTrue binding place
    · exact evaluate_yields onFalse binding place
  | .list items, binding, place => by
    rw [evaluate]
    exact (evaluateItems_yields items binding place).bind fun nodes sound =>
      .pure (Value.sound_list.mpr sound)
  | .range start stop, binding, place => by
    rw [evaluate]
    refine (evaluate_yields start binding place).bind fun first _ => ?_
    refine (expectInt_yields _).bind fun first _ => ?_
    refine (evaluate_yields stop binding place).bind fun last _ => ?_
    exact (expectInt_yields _).bind fun last _ => .pure sound_rangeItems
  | .map entries, binding, place => by
    rw [evaluate]
    exact (evaluateEntries_yields entries binding place).bind fun fields sound =>
      .pure (sound_ofList sound)
  | .call callee args, binding, place => by
    rw [evaluate]
    split
    · split
      · exact .fail
      · next function known =>
        exact (evaluateArguments_yields args binding place).bind fun arguments sound =>
          callFunction_yields below (functions _ function known) sound place
    · refine (evaluate_yields callee binding place).bind fun value known => ?_
      refine (expectLambda_yields known).bind fun l lambda => ?_
      exact (evaluateArguments_yields args binding place).bind fun arguments sound =>
        below.invoke l arguments binding lambda sound place
  | .intrinsic id args, binding, place => by
    rw [evaluate]
    exact Intrinsic.run_yields below place (delay_sound args) id
  | .curry callee args, binding, place => by
    rw [evaluate]
    refine (evaluate_yields callee binding place).bind fun value known => ?_
    refine (expectLambda_yields known).bind fun l lambda => ?_
    refine (evaluateArguments_yields args binding place).bind fun arguments sound => ?_
    exact Eval.Yields.bind (.ofFailing fun _ curried => Lambda.sound_curry lambda sound curried)
      fun l' known => .pure (Value.sound_lambda.mpr known)
  | .lambda expr, binding, place => by
    rw [evaluate]
    exact .pure (Value.sound_lambda.mpr (Lambda.sound_iff.mpr ⟨place, by simp⟩))
  | .merge m, binding, place => by
    rw [evaluate]
    exact MergeExpr.run_yields place m
  | .auto, binding, place => by
    rw [evaluate]
    exact autoSize_yields place
  | .marked markers none, binding, place => by
    rw [evaluate]
    exact .pure Value.sound_nil
  | .marked markers (some inner), binding, place => by
    rw [evaluate]
    split
    · exact .pure (Value.sound_template.mpr (Node.sound_plain (Value.sound_expression inner)))
    · exact (evaluate_yields inner binding place).bind fun resolved sound => .pure sound
  | .prefer operand, binding, place => by
    rw [evaluate]
    exact (evaluate_yields operand binding place).bind fun resolved sound => .pure sound
  | .substitution operand, binding, place => by
    rw [evaluate]
    refine (evaluate_yields operand binding place).bind fun resolved known => ?_
    rw [Resolved.Sound] at known
    split
    · next body shape =>
      exact below.flowNested body binding none none (Value.sound_template.mp (shape ▸ known)) place
        (by simp) (by simp)
    · exact mismatch_yields
  | .dynamic base index, binding, place => by
    rw [evaluate]
    refine (evaluate_yields base binding place).bind fun value known => ?_
    refine (evaluate_yields index binding place).bind fun _ _ => ?_
    exact (indexPath_yields _).bind fun path _ => navigate_yields known
  | .slice base start stop, binding, place => by
    rw [evaluate]
    refine (evaluate_yields base binding place).bind fun value known => ?_
    refine (evaluateBound_yields start binding place).bind fun _ _ => ?_
    refine (evaluateBound_yields stop binding place).bind fun _ _ => ?_
    exact (expectList_yields known).bind fun items sound => sliceItems_yields sound
  | .projection base path, binding, place => by
    rw [evaluate]
    refine (evaluate_yields base binding place).bind fun value known => ?_
    refine (expectElements_yields known).bind fun elements inside => ?_
    refine (Eval.Yields.mapM (Q := Node.Sound) fun element member => ?_).bind fun nodes sound =>
      .pure (Value.sound_list.mpr sound)
    exact (navigate_yields (inside element member).value).bind fun resolved result =>
      .pure result.toNode
  | .qualified base path, binding, place => by
    rw [evaluate]
    exact (evaluate_yields base binding place).bind fun value known => navigate_yields known

theorem evaluateItems_yields : ∀ (items : List Expr) (binding : Binding), binding.Sound →
    (evaluateItems engine deeper items binding).Yields fun nodes => ∀ node ∈ nodes, node.Sound
  | [], binding, place => by
    rw [evaluateItems]
    exact .pure (by simp)
  | e :: rest, binding, place => by
    rw [evaluateItems]
    refine (evaluate_yields e binding place).bind fun resolved known => ?_
    refine (evaluateItems_yields rest binding place).bind fun nodes others => .pure ?_
    split
    · exact others
    · exact List.forall_mem_cons.mpr ⟨known.toNode, others⟩

theorem evaluateEntries_yields : ∀ (entries : List (String × Expr)) (binding : Binding),
    binding.Sound →
    (evaluateEntries engine deeper entries binding).Yields fun fields =>
      ∀ field ∈ fields, field.2.Sound
  | [], binding, place => by
    rw [evaluateEntries]
    exact .pure (by simp)
  | (key, e) :: rest, binding, place => by
    rw [evaluateEntries]
    refine (evaluate_yields e binding place).bind fun resolved known => ?_
    refine (evaluateEntries_yields rest binding place).bind fun fields others => .pure ?_
    split
    · exact others
    · exact List.forall_mem_cons.mpr ⟨known.toNode, others⟩

theorem evaluateBound_yields : ∀ (bound : Option Expr) (binding : Binding), binding.Sound →
    (evaluateBound engine deeper bound binding).Yields fun _ => True
  | none, binding, place => by
    rw [evaluateBound]
    exact .pure trivial
  | some e, binding, place => by
    rw [evaluateBound]
    refine (evaluate_yields e binding place).bind fun _ _ => ?_
    exact (expectInt_yields _).bind fun _ _ => .pure trivial

theorem evaluateArguments_yields : ∀ (args : List Argument) (binding : Binding), binding.Sound →
    (evaluateArguments engine deeper args binding).Yields fun arguments =>
      ∀ argument ∈ arguments, argument.Sound
  | [], binding, place => by
    rw [evaluateArguments]
    exact .pure (by simp)
  | .positional e :: rest, binding, place => by
    rw [evaluateArguments]
    exact consArgument_yields (evaluate_yields e binding place)
      (evaluateArguments_yields rest binding place) fun _ sound => sound
  | .named name e :: rest, binding, place => by
    rw [evaluateArguments]
    exact consArgument_yields (evaluate_yields e binding place)
      (evaluateArguments_yields rest binding place) fun _ sound => sound
  | .indexed index e :: rest, binding, place => by
    rw [evaluateArguments]
    exact consArgument_yields (evaluate_yields e binding place)
      (evaluateArguments_yields rest binding place) fun _ sound => sound
  | .spread e :: rest, binding, place => by
    rw [evaluateArguments]
    refine (evaluate_yields e binding place).bind fun resolved known => ?_
    refine (expectList_yields known).bind fun items sound => ?_
    refine (evaluateArguments_yields rest binding place).bind fun arguments others => .pure ?_
    intro argument member
    rcases List.mem_append.mp member with spread | later
    · obtain ⟨item, inList, rfl⟩ := List.mem_map.mp spread
      exact sound item inList
    · exact others argument later

theorem delay_sound : ∀ (args : List Argument), ∀ d ∈ delay engine deeper args, d.Sound
  | [] => by
    rw [delay]
    simp
  | .positional e :: rest => by
    rw [delay]
    exact List.forall_mem_cons.mpr ⟨evaluate_yields e, delay_sound rest⟩
  | .named name e :: rest => by
    rw [delay]
    exact List.forall_mem_cons.mpr ⟨evaluate_yields e, delay_sound rest⟩
  | .indexed index e :: rest => by
    rw [delay]
    exact List.forall_mem_cons.mpr ⟨evaluate_yields e, delay_sound rest⟩
  | .spread e :: rest => by
    rw [delay]
    exact List.forall_mem_cons.mpr ⟨evaluate_yields e, delay_sound rest⟩

end

end

end Cascade
