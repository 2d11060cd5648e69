import Cascade.Evaluation.Invoke
import Cascade.Proofs.Operands
import Cascade.Proofs.PrintedBrackets
import Cascade.Proofs.TameFunctions

/-!
# Evaluation of tame expressions

At a place whose scope is tame, a tame expression evaluates to a tame value, and it comes to an end
as long as the calls that lead one level deeper do. Evaluation is recursion on the expression; what
is unbounded in it is what those calls do.

## Main definitions

* `Expr.Halts`: the expression comes to an end at every tame place.

## Main statements

* `Expr.Tame.halts`: tame expressions come to an end.
* `invokeLambda_halts`: so do the calls of tame lambdas.
-/

namespace Cascade

open Eval

variable {engine : Engine} {deeper : Nat → Deeper}

/-- At every tame place the expression comes to an end with a tame value. -/
def Expr.Halts (engine : Engine) (deeper : Nat → Deeper) (e : Expr) : Prop :=
  ∀ binding : Binding, binding.Tame →
    Eval.Halts (fun steps => evaluate engine (deeper steps) e binding) Resolved.Tame

theorem Reference.explains_tame {r : Reference} {scope : Scope} {defaultKey : String}
    (tame : scope.Tame) : Explains Resolved.Tame (r.resolve scope defaultKey false) :=
  (inherited_tame.explains_find tame).bind fun _ node => node.explains_nodeValue

/-! ### Intrinsic calls -/

/-- The argument is given by its place alone. -/
def Argument.isPositional : Argument → Bool
  | .positional _ => true
  | _ => false

/-- The argument as an intrinsic call receives it. -/
def Argument.delayed (engine : Engine) (deeper : Deeper) (a : Argument) : Delayed :=
  ⟨a.isPositional, a.expr, evaluate engine deeper a.expr⟩

theorem delay_eq_map (deeper : Deeper) (args : List Argument) :
    delay engine deeper args = args.map (Argument.delayed engine deeper) := by
  induction args with
  | nil => rw [delay, List.map_nil]
  | cons a rest ih =>
    rw [List.map_cons, ← ih]
    cases a <;> rw [delay] <;> rfl

section

variable {binding : Binding} {args : List Argument} (below : DeeperHalts deeper)
  (place : binding.Tame) (each : ∀ a ∈ args, a.expr.Halts engine deeper)

theorem wrongCount_halts {α : Type} {P : α → Prop} {id : Intrinsic} {expected got : Nat} :
    Eval.Halts (fun _ => (wrongCount id expected got : Eval α)) P := .fail

/-- A call with one argument halts if what it does with the argument does. -/
theorem onlyArgument_halts {id : Intrinsic} {next : Nat → Delayed → Eval Resolved}
    (given : ∀ a ∈ args,
      Eval.Halts (fun steps => next steps (a.delayed engine (deeper steps))) Resolved.Tame) :
    Eval.Halts
      (fun steps => onlyArgument id (args.map (Argument.delayed engine (deeper steps))) >>= next steps)
      Resolved.Tame := by
  rcases args with - | ⟨a, - | ⟨b, rest⟩⟩
  · exact (wrongCount_halts (P := fun _ => False)).bind fun _ impossible => impossible.elim
  · exact given a List.mem_cons_self
  · simp only [onlyArgument, List.map_cons, List.length_cons, List.length_map]
    exact (wrongCount_halts (P := fun _ => False)).bind fun _ impossible => impossible.elim

theorem observe_halts {e : Nat → Eval Resolved} {P : Resolved → Prop} (halts : Eval.Halts e P) :
    Eval.Halts (fun steps => observe (e steps)) fun _ => True := by
  refine halts.outcome.bind fun outcome known => ?_
  split
  · exact .pure trivial
  · exact .pure trivial
  · split
    · exact .pure trivial
    · exact .throw known

include place

/-- An argument that may be taken as it is comes to an end; its value need not be complete. -/
theorem runAsItIs_halts {a : Argument} (halts : a.expr.Halts engine deeper) :
    Eval.Halts (fun steps => (a.delayed engine (deeper steps)).runAsItIs engine binding)
      fun _ => True := by
  simp only [Delayed.runAsItIs, Argument.delayed]
  split
  · next r _ =>
    refine .ofOutcome ((inherited_tame.explains_find place).bind fun node _ => ?_)
    exact Explains.mono explains_nodeValue fun _ _ => trivial
  · exact (halts binding place).mono fun _ _ => trivial

theorem documentArgument_halts {a : Argument} (halts : a.expr.Halts engine deeper) :
    Eval.Halts (fun steps => documentArgument (a.delayed engine (deeper steps)) binding)
      (Node.Tame true) := by
  refine (halts binding place).bind fun resolved known => ?_
  rw [Resolved.Tame] at known
  split
  · next body shape => exact .pure (Value.tame_template.mp (shape ▸ known))
  · next fields shape => exact .pure (Node.tame_plain.mpr (shape ▸ known).asWritten)
  · exact .mismatch

include each

theorem stubArgument_halts :
    Eval.Halts
      (fun steps => stubArgument (args.map (Argument.delayed engine (deeper steps))) binding)
      fun _ => True := by
  rcases args with - | ⟨a, - | ⟨b, rest⟩⟩
  · exact .pure trivial
  · simp only [List.map_cons, List.map_nil, stubArgument, Argument.delayed]
    split
    · exact .pure trivial
    · refine (each a List.mem_cons_self binding place).bind fun resolved _ => ?_
      split
      · exact .pure trivial
      · exact .mismatch
  · simp only [stubArgument, List.map_cons, List.length_cons, List.length_map]
    exact wrongCount_halts

theorem stubValue_halts :
    Eval.Halts
      (fun steps => stubValue engine (args.map (Argument.delayed engine (deeper steps))) binding)
      Resolved.Tame := by
  refine (stubArgument_halts place each).bind fun path _ => ?_
  split
  · next node found => exact .ofOutcome (place.stubValue? found).explains_nodeValue
  · exact .fail

include below

theorem mergeDocuments_halts :
    Eval.Halts
      (fun steps =>
        mergeDocuments (deeper steps) (args.map (Argument.delayed engine (deeper steps))) binding)
      Resolved.Tame := by
  cases args with
  | nil => exact .fail
  | cons template stubs =>
    simp only [List.map_cons, mergeDocuments, List.mapM_map]
    refine (documentArgument_halts place (each _ List.mem_cons_self)).bind fun template known => ?_
    refine (Eval.Halts.mapM fun a member =>
      documentArgument_halts place (each a (List.mem_cons_of_mem _ member))).bind
        fun trees inside => ?_
    refine (below.flowNested template binding none (some trees) known place (by simp) ?_).mono
      fun r result => result.1.1
    rintro _ ⟨⟩
    exact inside

/-- The calls that neither quote errors nor wait come to an end. -/
theorem Intrinsic.run_halts {id : Intrinsic} (mild : id ≠ .catchError ∧ id ≠ .sync) :
    Eval.Halts
      (fun steps => id.run engine (deeper steps) (delay engine (deeper steps) args) binding)
      Resolved.Tame := by
  simp only [Intrinsic.run, delay_eq_map, List.any_map]
  change Eval.Halts (fun steps => if (args.any fun a => !a.isPositional) = true then _ else _) _
  split
  · exact .fail
  · cases id with
    | merge => exact mergeDocuments_halts below place each
    | catchError => exact absurd rfl mild.1
    | sync => exact absurd rfl mild.2
    | valid =>
      refine onlyArgument_halts fun a member => ?_
      exact (observe_halts (runAsItIs_halts place (each a member))).bind fun _ _ =>
        .pure (Value.tame_bool _)
    | defined =>
      refine onlyArgument_halts fun a member => ?_
      exact (observe_halts (runAsItIs_halts place (each a member))).bind fun _ _ =>
        .pure (Value.tame_bool _)
    | require =>
      refine onlyArgument_halts fun a member => ?_
      simp only [Argument.delayed]
      refine (each a member binding place).bind fun resolved result => ?_
      split
      · exact .fail
      · exact .pure result
    | stub => exact stubValue_halts place each

end

/-! ### Merge forms -/

section

variable {binding : Binding} (place : binding.Tame)

include place

theorem MergeExpr.run_halts (m : MergeExpr) :
    Eval.Halts (fun _ => m.run engine binding) Resolved.Tame := by
  unfold MergeExpr.run
  dsimp only
  split
  · next node found =>
    exact (Eval.Halts.ofOutcome (place.stubValue? found).explains_nodeValue).bind
      fun resolved result => .pure (show resolved.value.Tame false from result)
  · split
    · exact .fail
    · exact .pure Value.tame_nil

omit place in
theorem jobInstances_halts {defaultKey pool : String} {job : Node} :
    Eval.Halts (fun _ => jobInstances defaultKey pool job) fun _ => True := by
  unfold jobInstances
  split
  · exact .pure trivial
  · split
    · exact .throw rfl
    · split
      · exact .pure trivial
      · split
        · exact .pure trivial
        · refine (Eval.Halts.ofOutcome (Explains.mono explains_nodeValue fun _ _ => trivial)).bind
            fun resolved (_ : True) => ?_
          exact (expectInt_halts _).bind fun _ _ => .pure trivial

omit place in
theorem autoSize_halts : Eval.Halts (fun _ => autoSize engine binding) Resolved.Tame := by
  unfold autoSize
  split
  · refine Eval.Halts.bind (P := fun _ => True) ?_ fun total _ => .pure (Value.tame_int total)
    refine Eval.Halts.foldlM trivial fun total job _ _ => ?_
    exact jobInstances_halts.bind fun _ _ => .ofFailing fun _ _ => trivial
  · exact .fail

end

/-! ### Parts of expressions -/

section

variable {binding : Binding} (place : binding.Tame)

include place

theorem evaluateItems_halts {items : List Expr} (each : ∀ e ∈ items, e.Halts engine deeper) :
    Eval.Halts (fun steps => evaluateItems engine (deeper steps) items binding) fun nodes =>
      ∀ node ∈ nodes, node.Tame false := by
  induction items with
  | nil =>
    simp only [evaluateItems]
    exact .pure (by simp)
  | cons e rest ih =>
    simp only [evaluateItems]
    refine (each e List.mem_cons_self binding place).bind fun resolved known => ?_
    refine (ih fun e member => each e (List.mem_cons_of_mem _ member)).bind
      fun nodes others => .pure ?_
    split
    · exact others
    · exact List.forall_mem_cons.mpr ⟨known.toNode, others⟩

/-- The keys of a map literal are those that are written. -/
theorem evaluateEntries_halts {entries : List (String × Expr)}
    (each : ∀ entry ∈ entries, entry.2.Halts engine deeper)
    (mild : ∀ entry ∈ entries, isBare entry.1 = true ∧ entry.1 ≠ directiveKey) :
    Eval.Halts (fun steps => evaluateEntries engine (deeper steps) entries binding) fun fields =>
      ∀ field ∈ fields, FieldTame false field := by
  induction entries with
  | nil =>
    simp only [evaluateEntries]
    exact .pure (by simp)
  | cons entry rest ih =>
    obtain ⟨key, e⟩ := entry
    obtain ⟨⟨bare, ordinary⟩, others⟩ := List.forall_mem_cons.mp mild
    simp only [evaluateEntries]
    refine (each _ List.mem_cons_self binding place).bind fun resolved known => ?_
    refine (ih (fun entry member => each entry (List.mem_cons_of_mem _ member)) others).bind
      fun fields inside => .pure ?_
    split
    · exact inside
    · exact List.forall_mem_cons.mpr
        ⟨⟨bare, known.toNode, fun directive => absurd directive ordinary⟩, inside⟩

theorem evaluateBound_halts {bound : Option Expr} (each : ∀ e ∈ bound, e.Halts engine deeper) :
    Eval.Halts (fun steps => evaluateBound engine (deeper steps) bound binding) fun _ => True := by
  cases bound with
  | none =>
    simp only [evaluateBound]
    exact .pure trivial
  | some e =>
    simp only [evaluateBound]
    refine (each e rfl binding place).bind fun _ _ => ?_
    exact (expectInt_halts _).bind fun _ _ => .pure trivial

/-- All nodes of evaluated arguments are computed. -/
def ArgumentsTame (arguments : List ArgumentValue) : Prop :=
  ∀ argument ∈ arguments, argument.Has (Node.Tame false)

omit place in
theorem consArgument_halts {e : Nat → Eval Resolved} {later : Nat → Eval (List ArgumentValue)}
    {make : Node → ArgumentValue} {source : String} (first : Eval.Halts e Resolved.Tame)
    (others : Eval.Halts later ArgumentsTame)
    (kept : ∀ node : Node, node.Tame false → (make node).Has (Node.Tame false)) :
    Eval.Halts
      (fun steps => (do
        let node := (← e steps).toNode source
        return make node :: (← later steps) : Eval (List ArgumentValue)))
      ArgumentsTame := by
  refine first.bind fun resolved known => ?_
  exact others.bind fun arguments tame =>
    .pure (List.forall_mem_cons.mpr ⟨kept _ known.toNode, tame⟩)

theorem evaluateArguments_halts {args : List Argument}
    (each : ∀ a ∈ args, a.expr.Halts engine deeper) :
    Eval.Halts (fun steps => evaluateArguments engine (deeper steps) args binding)
      ArgumentsTame := by
  induction args with
  | nil =>
    simp only [evaluateArguments]
    exact .pure (by simp [ArgumentsTame])
  | cons a rest ih =>
    have first := each a List.mem_cons_self binding place
    have others := ih fun a member => each a (List.mem_cons_of_mem _ member)
    cases a with
    | positional e =>
      simp only [evaluateArguments]
      exact consArgument_halts first others fun _ tame => tame
    | named name e =>
      simp only [evaluateArguments]
      exact consArgument_halts first others fun _ tame => tame
    | indexed index e =>
      simp only [evaluateArguments]
      exact consArgument_halts first others fun _ tame => tame
    | spread e =>
      simp only [evaluateArguments]
      refine Eval.Halts.bind first fun resolved known => ?_
      refine (expectList_halts known).bind fun items tame => ?_
      refine others.bind fun arguments later => .pure fun argument member => ?_
      rcases List.mem_append.mp member with spread | behind
      · obtain ⟨item, inList, rfl⟩ := List.mem_map.mp spread
        exact tame item inList
      · exact later argument behind

end

theorem ArgumentValue.Has.mono {N N' : Node → Prop} {argument : ArgumentValue} (has : argument.Has N)
    (weaker : ∀ node, N node → N' node) : argument.Has N' := by
  cases argument <;> exact weaker _ has

theorem ArgumentsTame.asWritten {arguments : List ArgumentValue} (tame : ArgumentsTame arguments) :
    ∀ argument ∈ arguments, argument.Has (Node.Tame true) :=
  fun argument member => (tame argument member).mono fun _ => Node.Tame.asWritten

/-! ### Expressions -/

section

variable (registered : engine.functions = Standard.functions) (below : DeeperHalts deeper)
  {binding : Binding} (place : binding.Tame)

theorem callFunction_halts {name : String} {function : Function} {args : List ArgumentValue}
    (below : DeeperHalts deeper) (place : binding.Tame) (known : Function.Halts function)
    (arguments : ArgumentsTame args) :
    Eval.Halts (fun steps => callFunction (deeper steps) name function args binding)
      Resolved.Tame := by
  refine (Eval.Halts.mapM (Q := Value.Tame false) fun argument member => ?_).bind
    fun values tame => known deeper values binding below tame place
  have tame := arguments argument member
  split
  · exact .pure (Node.Tame.value tame)
  · exact .fail

theorem tame_rangeItems {numbers : List Int64} {source : String} :
    (Value.list (numbers.map fun n => .plain (.int n) source)).Tame false := by
  rw [Value.tame_list]
  intro item member
  obtain ⟨n, -, rfl⟩ := List.mem_map.mp member
  exact Node.tame_plain.mpr (Value.tame_int n)

theorem tame_ofList {entries : List (String × Node)}
    (tame : ∀ entry ∈ entries, FieldTame false entry) :
    (Value.map (Fields.ofList entries)).Tame false :=
  Value.tame_map.mpr ⟨Fields.sorted_ofList entries, fun field member =>
    tame field (Fields.mem_ofList member)⟩

/-- A name that is looked up among the functions does not write values as they are displayed. -/
theorem functionName?_ne_format {callee : Expr} {name : String} (mild : ¬callee.isFormat)
    (plain : functionName? engine callee binding = some name) : name ≠ "format" := by
  rintro rfl
  unfold functionName? at plain
  split at plain
  · next r shape =>
    obtain ⟨simple, -⟩ := Option.filter_eq_some_iff.mp plain
    exact mild ⟨r, shape, simple⟩
  · cases plain

include registered below

/-- Tame expressions come to an end with a tame value. -/
theorem Expr.Tame.halts {e : Expr} (tame : e.Tame) : e.Halts engine deeper := by
  induction e using Expr.operandInduction with
  | step e ih =>
  have first {operand : Expr} {rest : List Expr} (shape : e.operands = operand :: rest)
      (tame : operand.Tame) : operand.Halts engine deeper :=
    ih operand (shape ▸ List.mem_cons_self) tame
  have second {before operand : Expr} {rest : List Expr}
      (shape : e.operands = before :: operand :: rest) (tame : operand.Tame) :
      operand.Halts engine deeper :=
    ih operand (shape ▸ List.mem_cons_of_mem _ List.mem_cons_self) tame
  intro binding place
  cases e with
  | nil =>
    simp only [evaluate]
    exact .pure Value.tame_nil
  | undefined =>
    simp only [evaluate]
    exact .pure Value.tame_nil
  | bool b =>
    simp only [evaluate]
    exact .pure (Value.tame_bool b)
  | int n =>
    simp only [evaluate]
    exact .pure (Value.tame_int n)
  | float x =>
    simp only [evaluate]
    exact .pure (Value.tame_float x)
  | string s =>
    simp only [evaluate]
    exact .pure (Value.tame_string_of_isBare tame)
  | reference r =>
    simp only [evaluate]
    exact .ofOutcome (Reference.explains_tame place)
  | grouped inner =>
    simp only [evaluate]
    exact first rfl tame.2 binding place
  | arithmetic op lhs rhs =>
    obtain ⟨-, left, right⟩ := tame
    simp only [evaluate]
    refine (first rfl left binding place).bind fun lhs _ => ?_
    refine (second rfl right binding place).bind fun rhs _ => ?_
    exact Eval.Halts.bind (.ofFailing fun _ computed => tame_of_arithmetic computed)
      fun value known => .pure known
  | concatenation lhs rhs =>
    obtain ⟨-, left, right⟩ := tame
    simp only [evaluate]
    refine (first rfl left binding place).bind fun lhs known => ?_
    refine (second rfl right binding place).bind fun rhs known' => ?_
    exact Eval.Halts.bind (.ofFailing fun _ joined => tame_of_concatenate known known' joined)
      fun value known => .pure known
  | comparison op lhs rhs =>
    obtain ⟨-, left, right⟩ := tame
    simp only [evaluate]
    refine (first rfl left binding place).bind fun lhs _ => ?_
    refine (second rfl right binding place).bind fun rhs _ => ?_
    exact Eval.Halts.bind (P := fun _ => True) (.ofFailing fun _ _ => trivial) fun result _ =>
      .pure (Value.tame_bool result)
  | fallback lhs rhs =>
    obtain ⟨-, left, right⟩ := tame
    simp only [evaluate]
    refine (first rfl left binding place).outcome.bind fun outcome known => ?_
    split
    · split
      · exact second rfl right binding place
      · exact .pure known
    · exact second rfl right binding place
    · exact .throw known
  | logical op lhs rhs =>
    obtain ⟨-, left, right⟩ := tame
    simp only [evaluate]
    refine (first rfl left binding place).bind fun lhs _ => ?_
    split
    · exact .pure (Value.tame_bool _)
    · exact .pure (Value.tame_bool _)
    · exact (second rfl right binding place).bind fun _ _ => .pure (Value.tame_bool _)
  | not operand =>
    simp only [evaluate]
    exact (first rfl tame.2 binding place).bind fun _ _ => .pure (Value.tame_bool _)
  | conditional condition onTrue onFalse =>
    obtain ⟨-, test, positive, negative⟩ := tame
    simp only [evaluate]
    refine (first rfl test binding place).bind fun _ _ => ?_
    split
    · exact second rfl positive binding place
    · exact ih onFalse (by simp [Expr.operands]) negative binding place
  | list items =>
    have each := Grammar.everywhereInItems_iff.mp tame.2
    simp only [evaluate]
    exact (evaluateItems_halts place fun e member => ih e member (each e member)).bind
      fun nodes known => .pure (Value.tame_list.mpr known)
  | range start stop =>
    obtain ⟨-, left, right⟩ := tame
    simp only [evaluate]
    refine (first rfl left binding place).bind fun _ _ => ?_
    refine (expectInt_halts _).bind fun _ _ => ?_
    refine (second rfl right binding place).bind fun _ _ => ?_
    exact (expectInt_halts _).bind fun _ _ => .pure tame_rangeItems
  | map entries =>
    have each := Grammar.everywhereInEntries_iff.mp tame.2
    simp only [evaluate]
    refine (evaluateEntries_halts place (fun entry member => ?_) tame.1).bind fun fields known =>
      .pure (tame_ofList known)
    exact ih entry.2 (List.mem_map_of_mem member) (each entry member)
  | call callee args =>
    obtain ⟨mild, called, given⟩ := tame
    have each := Grammar.everywhereInArguments_iff.mp given
    have arguments := evaluateArguments_halts place fun a member =>
      ih a.expr (List.mem_cons_of_mem _ (List.mem_map_of_mem member)) (each a member)
    simp only [evaluate]
    split
    · next name plain =>
      split
      · exact .fail
      · next function known =>
        rw [registered] at known
        have halts := Standard.functions_halt (functionName?_ne_format mild plain) known
        exact arguments.bind fun _ computed => callFunction_halts below place halts computed
    · refine (first rfl called binding place).bind fun value known => ?_
      refine (expectLambda_halts known).bind fun l lambda => ?_
      exact arguments.bind fun _ computed =>
        below.invoke l _ binding lambda computed.asWritten place
  | intrinsic id args =>
    have each := Grammar.everywhereInArguments_iff.mp tame.2
    simp only [evaluate]
    exact Intrinsic.run_halts below place
      (fun a member => ih a.expr (List.mem_map_of_mem member) (each a member)) tame.1
  | curry callee args =>
    obtain ⟨-, called, given⟩ := tame
    have each := Grammar.everywhereInArguments_iff.mp given
    have arguments := evaluateArguments_halts place fun a member =>
      ih a.expr (List.mem_cons_of_mem _ (List.mem_map_of_mem member)) (each a member)
    simp only [evaluate]
    refine (first rfl called binding place).bind fun value known => ?_
    refine (expectLambda_halts known).bind fun l lambda => ?_
    refine arguments.bind fun _ computed => ?_
    exact Eval.Halts.bind (.ofFailing fun _ curried => lambda.curry computed.asWritten curried)
      fun l' known => .pure (Value.tame_lambda.mpr known)
  | lambda expr =>
    -- The body is not evaluated here, but one level deeper when the lambda is called.
    simp only [evaluate]
    exact .pure (Value.tame_lambda.mpr (Lambda.tame_iff.mpr ⟨tame, place, by simp⟩))
  | merge m =>
    simp only [evaluate]
    exact m.run_halts place
  | auto =>
    simp only [evaluate]
    exact autoSize_halts
  | marked markers inner =>
    cases inner with
    | none =>
      simp only [evaluate]
      exact .pure Value.tame_nil
    | some inner =>
      simp only [evaluate]
      split
      · exact .pure (Value.tame_template.mpr (Node.tame_plain.mpr (Value.tame_expression.mpr tame.2)))
      · exact (first rfl tame.2 binding place).bind fun resolved known => .pure known
  | prefer operand =>
    simp only [evaluate]
    exact (first rfl tame.2 binding place).bind fun resolved known => .pure known
  | substitution operand =>
    simp only [evaluate]
    refine (first rfl tame.2 binding place).bind fun resolved known => ?_
    rw [Resolved.Tame] at known
    split
    · next body shape =>
      exact (below.flowNested body binding none none (Value.tame_template.mp (shape ▸ known)) place
        (by simp) (by simp)).mono fun r result => result.1.1
    · exact .mismatch
  | dynamic base index =>
    obtain ⟨-, left, right⟩ := tame
    simp only [evaluate]
    refine (first rfl left binding place).bind fun value known => ?_
    refine (second rfl right binding place).bind fun _ _ => ?_
    exact (indexPath_halts _).bind fun path _ => navigate_halts known
  | slice base start stop =>
    obtain ⟨-, whole, lower, upper⟩ := tame
    have bound {limit : Option Expr} (inside : ∀ e ∈ limit, e ∈ (Expr.slice base start stop).operands)
        (mild : Expr.EverywhereInOption Expr.Mild limit) : ∀ e ∈ limit, e.Halts engine deeper := by
      rintro e ⟨⟩
      exact ih e (inside e rfl) mild
    simp only [evaluate]
    refine (first rfl whole binding place).bind fun value known => ?_
    refine (evaluateBound_halts place (bound ?_ lower)).bind fun _ _ => ?_
    · simp +contextual [Expr.operands]
    refine (evaluateBound_halts place (bound ?_ upper)).bind fun _ _ => ?_
    · simp +contextual [Expr.operands]
    exact (expectList_halts known).bind fun items tame => sliceItems_halts tame
  | projection base path =>
    simp only [evaluate]
    refine (first rfl tame.2 binding place).bind fun value known => ?_
    refine (expectElements_halts known).bind fun elements inside => ?_
    refine (Eval.Halts.mapM (Q := Node.Tame false) fun element member => ?_).bind fun nodes known =>
      .pure (Value.tame_list.mpr known)
    exact (navigate_halts (inside element member).value).bind fun resolved result =>
      .pure result.toNode
  | qualified base path =>
    simp only [evaluate]
    exact (first rfl tame.2 binding place).bind fun value known => navigate_halts known

end

/-! ### Calls -/

theorem LambdaExpr.tame_iff {l : LambdaExpr} :
    l.Tame ↔ (∀ param ∈ l.params, Expr.EverywhereInOption Expr.Mild param.default) ∧
      l.body.Tame := by
  obtain ⟨params, body⟩ := l
  rw [← Grammar.everywhereInParameters_iff]
  exact and_iff_right trivial

section

variable (registered : engine.functions = Standard.functions) (below : DeeperHalts deeper)

theorem Lambda.Tame.callScope {l : Lambda} {caller : Binding} (tame : l.Tame)
    (place : caller.Tame) : (l.callScope caller).Tame := by
  have own := (Lambda.tame_iff.mp tame).2.1
  rw [Lambda.callScope]
  split
  · obtain ⟨-, locals, outer⟩ := Scope.tame_iff.mp own
    exact Scope.tame_iff.mpr ⟨place.document, locals, outer⟩
  · exact own

include registered below

theorem parameterNode_halts {scope : Scope} {caller : Binding} {layer : Fields Node}
    {slot : Option Node} {param : Parameter} (tame : scope.Tame)
    (named : ∀ field ∈ layer, field.2.Tame true) (bound : ∀ node ∈ slot, node.Tame true)
    (mild : Expr.EverywhereInOption Expr.Mild param.default) :
    Eval.Halts (fun steps => parameterNode engine (deeper steps) scope caller layer slot param)
      (Node.Tame true) := by
  unfold parameterNode
  split
  · next node => exact .pure (bound node rfl)
  · split
    · exact .pure (Node.tame_plain.mpr (Value.tame_list.mpr (by simp)))
    · split
      · next default given =>
        rw [given] at mild
        exact (Expr.Tame.halts registered below mild _
          (Binding.Tame.deeper (Binding.Tame.layered tame named))).bind fun resolved known =>
            .pure known.toNode.asWritten
      · exact .fail

theorem parameterLayer_halts {scope : Scope} {caller : Binding} {slots : Slots} {position : Nat}
    {params : List Parameter} {layer : Fields Node} (tame : scope.Tame)
    (named : ∀ field ∈ layer, field.2.Tame true) (bound : ∀ slot ∈ slots, slot.2.Tame true)
    (mild : ∀ param ∈ params, Expr.EverywhereInOption Expr.Mild param.default) :
    Eval.Halts
      (fun steps => parameterLayer engine (deeper steps) scope caller slots position params layer)
      fun layer => ∀ field ∈ layer, field.2.Tame true := by
  induction params generalizing position layer with
  | nil =>
    simp only [parameterLayer]
    exact .pure named
  | cons param rest ih =>
    obtain ⟨first, others⟩ := List.forall_mem_cons.mp mild
    simp only [parameterLayer]
    refine (parameterNode_halts registered below tame named ?_ first).bind fun node known => ?_
    · exact fun node found => bound _ (Slots.mem_of_find? found)
    · refine ih (fun field member => ?_) others
      rcases Fields.mem_insert member with rfl | before
      · exact known
      · exact named field before

/-- A call of a tame lambda comes to an end with a tame value. -/
theorem invokeLambda_halts {l : Lambda} {args : List ArgumentValue} {caller : Binding}
    (tame : l.Tame) (arguments : ∀ argument ∈ args, argument.Has (Node.Tame true))
    (place : caller.Tame) :
    Eval.Halts (fun steps => invokeLambda engine (deeper steps) l args caller) Resolved.Tame := by
  obtain ⟨params, body⟩ := LambdaExpr.tame_iff.mp (Lambda.tame_iff.mp tame).1
  unfold invokeLambda
  refine Eval.Halts.bind (.ofFailing fun slots bound => tame.bindArguments arguments bound)
    fun slots bound => ?_
  refine (parameterLayer_halts registered below (tame.callScope place) ?_ bound
    params).bind fun layer named => ?_
  · simpa using Node.tame_plain.mpr (Value.tame_lambda.mpr tame)
  · exact Expr.Tame.halts registered below body _
      (Binding.Tame.deeper (Binding.Tame.layered (tame.callScope place) named))

end

end Cascade
