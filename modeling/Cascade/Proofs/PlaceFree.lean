import Mathlib.Data.List.Forall2
import Cascade.Evaluation.Evaluate
import Cascade.Evaluation.Standard
import Cascade.Proofs.Operands

/-!
# Evaluation at another place of the same scope

Besides the scope, an evaluation can depend on its place: `auto` reads its path, and two forms name
it in a message. Calls that lead one level deeper are given, so what they read is not told here. The
comparison of two places is a refinement: an evaluation that does not ask for its place, with calls
that may give no answer, is refined by the evaluation at any other place of the same scope.

## Main definitions

* `Run.Refines`, `Eval.Refines`: wherever the first computation has a result, the second has it too.
* `Expr.isPlaceFree`: the place is not asked for.
* `Deeper.Refines`, `Function.Refines`: the refinement of calls at places of one scope.

## Main statements

* `Standard.functions_refine`: the standard functions depend on their place through its scope alone.
* `evaluate_refines`: so do expressions that do not ask for their place.
-/

namespace Cascade

open Eval

variable {α β : Type}

/-! ### Refinement -/

/-- Wherever the first computation has a result, the second one has the same. -/
def Run.Refines (r r' : Run α) : Prop :=
  ∀ world result, r world = some result → r' world = some result

/-- Wherever the first evaluation has an outcome, the second one has the same. -/
def Eval.Refines (e e' : Eval α) : Prop := Run.Refines e.run e'.run

namespace Run.Refines

theorem refl (r : Run α) : Run.Refines r r := fun _ _ yields => yields

theorem bind {r r' : Run α} {next next' : α → Run β} (first : Run.Refines r r')
    (later : ∀ a, Run.Refines (next a) (next' a)) : Run.Refines (r >>= next) (r' >>= next') := by
  intro world result yields
  change (r world).bind _ = _ at yields
  obtain ⟨⟨a, middle⟩, start, rest⟩ := Option.bind_eq_some_iff.mp yields
  change (r' world).bind _ = _
  rw [first world _ start]
  exact later a middle result rest

end Run.Refines

namespace Eval.Refines

theorem refl (e : Eval α) : e.Refines e := Run.Refines.refl e.run

theorem of_eq {e e' : Eval α} (same : e = e') : e.Refines e' := same ▸ refl e

theorem exhausted {e : Eval α} : (Eval.exhausted : Eval α).Refines e := by
  rintro world result yields
  cases yields

theorem bind {e e' : Eval α} {next next' : α → Eval β} (first : e.Refines e')
    (later : ∀ a, (next a).Refines (next' a)) : (e >>= next).Refines (e' >>= next') := by
  refine Run.Refines.bind first fun outcome => ?_
  cases outcome with
  | ok a => exact later a
  | error u => exact Run.Refines.refl _

theorem fail_bind {failure : Failure} {next next' : α → Eval β} :
    (fail failure >>= next).Refines (fail failure >>= next') :=
  fun _ _ yields => yields

theorem map {e e' : Eval α} (f : α → β) (first : e.Refines e') : (f <$> e).Refines (f <$> e') := by
  rw [map_eq_pure_bind, map_eq_pure_bind]
  exact first.bind fun a => refl _

theorem outcome {e e' : Eval α} (first : e.Refines e') : e.outcome.Refines e'.outcome := by
  change Run.Refines (Except.ok <$> e.run) (Except.ok <$> e'.run)
  rw [map_eq_pure_bind, map_eq_pure_bind]
  exact Run.Refines.bind first fun a => Run.Refines.refl _

theorem mapM {R : α → α → Prop} {f f' : α → Eval β} {items items' : List α}
    (each : ∀ item item', R item item' → (f item).Refines (f' item'))
    (related : List.Forall₂ R items items') : (items.mapM f).Refines (items'.mapM f') := by
  induction related with
  | nil => exact refl _
  | cons first _ ih =>
    rw [List.mapM_cons, List.mapM_cons]
    exact (each _ _ first).bind fun result => ih.bind fun results => refl _

theorem filterMapM {f f' : α → Eval (Option β)} (each : ∀ item, (f item).Refines (f' item))
    (items : List α) : (items.filterMapM f).Refines (items.filterMapM f') := by
  induction items with
  | nil => exact refl _
  | cons item rest ih =>
    rw [List.filterMapM_cons, List.filterMapM_cons]
    refine (each item).bind fun result => ?_
    cases result with
    | none => exact ih
    | some b => exact ih.bind fun results => refl _

theorem foldlM {f f' : β → α → Eval β} (each : ∀ acc item, (f acc item).Refines (f' acc item))
    (items : List α) (start : β) : (items.foldlM f start).Refines (items.foldlM f' start) := by
  induction items generalizing start with
  | nil => exact refl _
  | cons item rest ih =>
    rw [List.foldlM_cons, List.foldlM_cons]
    exact (each start item).bind fun acc => ih acc

theorem filterM {f f' : α → Eval Bool} (each : ∀ item, (f item).Refines (f' item))
    (items : List α) : (items.filterM f).Refines (items.filterM f') := by
  have collects : ∀ acc, (List.filterAuxM f items acc).Refines (List.filterAuxM f' items acc) := by
    induction items with
    | nil => exact fun acc => refl _
    | cons item rest ih => exact fun acc => (each item).bind fun accepted => ih _
  exact (collects []).bind fun selected => refl _

end Eval.Refines

/-! ### Expressions that do not ask for their place -/

/-- Without stubs, the form depends on the place at which it stands: it sizes the resource pool of
its path, or names its path in a message. -/
def Expr.asksPlace : Expr → Bool
  | .auto => true
  | .merge m => m.required && m.path.isNone
  | .intrinsic id args => id == .stub && args.isEmpty
  | _ => false

/-- No part outside of lambda bodies asks for its place. -/
def Expr.isPlaceFree (e : Expr) : Bool := e.walk.all fun part => !part.asksPlace

namespace Expr

theorem isPlaceFree_iff {e : Expr} :
    e.isPlaceFree ↔ e.asksPlace = false ∧ ∀ operand ∈ e.operands, operand.isPlaceFree := by
  simp only [isPlaceFree, List.all_eq_true, Bool.not_eq_true']
  exact forall_walk_iff

theorem isPlaceFree_single {e operand : Expr} (free : e.isPlaceFree)
    (shape : e.operands = [operand]) : operand.isPlaceFree := by
  rw [isPlaceFree, List.all_eq_true] at free ⊢
  exact forall_walk_single free shape

theorem isPlaceFree_pair {e lhs rhs : Expr} (free : e.isPlaceFree)
    (shape : e.operands = [lhs, rhs]) : lhs.isPlaceFree ∧ rhs.isPlaceFree := by
  rw [isPlaceFree, List.all_eq_true] at *
  rw [isPlaceFree, List.all_eq_true]
  exact forall_walk_pair free shape

end Expr

/-! ### Places of one scope -/

namespace Binding

variable {b b' : Binding}

theorem source_eq_of_scope (same : b.scope = b'.scope) : b.source = b'.source := by
  rw [source, source, document, document, same]

theorem stubs_of_scope (same : b.scope = b'.scope) (noStubs : b.document.stubs = []) :
    b'.document.stubs = [] := by
  rw [document, ← same]
  exact noStubs

theorem stubValue?_of_noStubs (noStubs : b.document.stubs = []) (path : List String)
    (defaultKey : String) : b.stubValue? path defaultKey = none := by
  rw [stubValue?, noStubs]
  rfl

end Binding

/-- The calls of the first are refined by those of the second, made at other places of the same
scope. -/
structure Deeper.Refines (deeper deeper' : Deeper) : Prop where
  invoke : ∀ l args (caller caller' : Binding), caller.scope = caller'.scope →
    (deeper.invoke l args caller).Refines (deeper'.invoke l args caller')
  flowNested : ∀ node (b b' : Binding) locals stubs,
    (deeper.flowNested node b locals stubs).Refines (deeper'.flowNested node b' locals stubs)
  fuel : deeper.fuel = deeper'.fuel

/-- The function depends on its place through the scope and the calls one level deeper alone. -/
def Function.Refines (function : Function) : Prop :=
  ∀ (deeper deeper' : Deeper) args (b b' : Binding), deeper.Refines deeper' → b.scope = b'.scope →
    (function deeper args b).Refines (function deeper' args b')

/-! ### Standard functions -/

namespace Standard

/-- A function without calls that names its results after the source of its place. -/
theorem refines_of_source {function : Function}
    (reads : ∀ (deeper deeper' : Deeper) args (b b' : Binding), b.source = b'.source →
      function deeper args b = function deeper' args b') : Function.Refines function :=
  fun deeper deeper' args b b' _ same =>
    .of_eq (reads deeper deeper' args b b' (Binding.source_eq_of_scope same))

theorem elementArguments_of_source {l : Lambda} {key : Value} {element : Node} {b b' : Binding}
    (same : b.source = b'.source) :
    elementArguments l key element b = elementArguments l key element b' := by
  rw [elementArguments, elementArguments, same]

theorem keys_refines : Function.Refines keys :=
  refines_of_source fun _ _ args b b' same => by rw [keys, keys]; simp only [listOf, same]

theorem split_refines : Function.Refines split :=
  refines_of_source fun _ _ args b b' same => by rw [split, split]; simp only [listOf, same]

theorem map_refines : Function.Refines map := by
  intro deeper deeper' args b b' below same
  refine (Eval.Refines.refl _).bind fun _ => ?_
  refine (Eval.Refines.refl _).bind fun l => ?_
  refine (Eval.Refines.refl _).bind fun elements => ?_
  refine (Eval.Refines.filterMapM (fun element => ?_) elements).bind fun results => .refl _
  simp only [elementArguments_of_source (Binding.source_eq_of_scope same),
    Binding.source_eq_of_scope same]
  exact (below.invoke l _ b b' same).bind fun resolved => .refl _

theorem select_refines : Function.Refines select := by
  intro deeper deeper' args b b' below same
  refine (Eval.Refines.refl _).bind fun _ => ?_
  refine (Eval.Refines.refl _).bind fun l => ?_
  have accepts (key : Value) (element : Node) :
      (do
        let resolved ← deeper.invoke l (elementArguments l key element b) b
        return resolved.value.isTruthy : Eval Bool).Refines
      (do
        let resolved ← deeper'.invoke l (elementArguments l key element b') b'
        return resolved.value.isTruthy) := by
    rw [elementArguments_of_source (Binding.source_eq_of_scope same)]
    exact (below.invoke l _ b b' same).bind fun resolved => .refl _
  simp only
  split
  · refine (Eval.Refines.filterM (fun field => ?_) _).bind fun selected => .refl _
    split
    · exact .refl _
    · exact accepts _ _
  · refine (Eval.Refines.refl _).bind fun elements => ?_
    exact (Eval.Refines.filterM (fun element => accepts _ _) elements).bind fun selected =>
      .refl _

theorem sum_refines : Function.Refines sum := by
  intro deeper deeper' args b b' below same
  refine (Eval.Refines.refl _).bind fun _ => ?_
  simp only [Binding.source_eq_of_scope same]
  split
  · exact .refl _
  · refine (Eval.Refines.refl _).bind fun l => ?_
    refine (Eval.Refines.refl _).bind fun elements => ?_
    refine (Eval.Refines.foldlM (fun total element => ?_) elements _).bind fun total => .refl _
    exact (below.invoke l _ b b' same).bind fun resolved => .refl _

/-- The standard functions depend on their place through its scope alone. -/
theorem functions_refine : ∀ entry ∈ functions, Function.Refines entry.2 := by
  have pure {function : List Value → Eval Resolved} : Function.Refines fun _ args _ =>
      function args := refines_of_source fun _ _ _ _ _ _ => rfl
  simp only [functions, List.forall_mem_cons]
  exact ⟨pure, pure, pure, pure, keys_refines, pure, pure, map_refines, pure, pure,
    select_refines, split_refines, sum_refines, pure, pure, pure, pure, pure, by simp⟩

end Standard

/-! ### Intrinsic calls -/

/-- The evaluation that an argument stands for is refined from one place to another. -/
structure Delayed.Refines (b b' : Binding) (d d' : Delayed) : Prop where
  isPositional : d.isPositional = d'.isPositional
  expr : d.expr = d'.expr
  run : (d.run b).Refines (d'.run b')

theorem observe_refines {e e' : Eval Resolved} (refines : e.Refines e') :
    (observe e).Refines (observe e') :=
  refines.outcome.bind fun _ => .refl _

theorem caught_refines {e e' : Eval Resolved} (refines : e.Refines e') :
    (caught e).Refines (caught e') :=
  refines.outcome.bind fun _ => .refl _

section

variable {engine : Engine} {deeper deeper' : Deeper} {b b' : Binding} {args args' : List Delayed}
  (below : deeper.Refines deeper') (same : b.scope = b'.scope)
  (refines : List.Forall₂ (Delayed.Refines b b') args args')

theorem lambdaArgument_refines {d d' : Delayed} (refines : d.Refines b b' d') :
    (lambdaArgument d b).Refines (lambdaArgument d' b') :=
  refines.run.bind fun _ => .refl _

include same in
theorem documentArgument_refines {d d' : Delayed} (refines : d.Refines b b' d') :
    (documentArgument d b).Refines (documentArgument d' b') := by
  refine refines.run.bind fun resolved => ?_
  rw [Binding.source_eq_of_scope same]
  exact .refl _

include same in
theorem runAsItIs_refines {d d' : Delayed} (refines : d.Refines b b' d') :
    (d.runAsItIs engine b).Refines (d'.runAsItIs engine b') := by
  rw [Delayed.runAsItIs, Delayed.runAsItIs, ← refines.expr, same]
  split
  · exact .refl _
  · exact refines.run

include below same refines

theorem mergeDocuments_refines :
    (mergeDocuments deeper args b).Refines (mergeDocuments deeper' args' b') := by
  obtain _ | ⟨template, stubs⟩ := refines
  · exact .refl _
  · refine (documentArgument_refines same template).bind fun template => ?_
    refine (Eval.Refines.mapM (fun _ _ stub => documentArgument_refines same stub) stubs).bind
      fun trees => ?_
    exact below.flowNested template b b' none (some trees)

theorem catchErrors_refines :
    (catchErrors deeper args b).Refines (catchErrors deeper' args' b') := by
  have count := refines.length_eq
  rw [catchErrors, catchErrors, Binding.source_eq_of_scope same]
  obtain _ | ⟨expr, _ | ⟨handler, _ | _⟩⟩ := refines
  · exact .refl _
  · rw [catchArguments, catchArguments, pure_bind, pure_bind]
    exact (caught_refines expr.run).bind fun result => .refl _
  · rw [catchArguments, catchArguments, pure_bind, pure_bind]
    refine (caught_refines expr.run).bind fun result => ?_
    exact (lambdaArgument_refines handler).bind fun l => below.invoke l _ b b' same
  · simp only [catchArguments, wrongCount, count]
    exact .fail_bind

omit below in
theorem stubValue_refines (noStubs : b.document.stubs = [])
    (placed : args.isEmpty = false) :
    (stubValue engine args b).Refines (stubValue engine args' b') := by
  have count := refines.length_eq
  obtain _ | ⟨d, _ | _⟩ := refines
  · cases placed
  · rw [stubValue, stubValue]
    simp only [Binding.stubValue?_of_noStubs noStubs,
      Binding.stubValue?_of_noStubs (Binding.stubs_of_scope same noStubs)]
    refine Eval.Refines.bind ?_ fun path => .refl _
    rw [stubArgument, stubArgument, ← d.expr]
    split
    · exact .refl _
    · exact d.run.bind fun resolved => .refl _
  · simp only [stubValue, stubArgument, wrongCount, count]
    exact .fail_bind

omit below same refines in
theorem syncSeconds_refines {timeout timeout' : Option Delayed}
    (limit : Option.Rel (Delayed.Refines b b') timeout timeout') :
    (syncSeconds engine timeout b).Refines (syncSeconds engine timeout' b') := by
  cases limit with
  | none => exact .refl _
  | some d => exact d.run.bind fun resolved => .refl _

omit refines in
theorem attemptSync_refines {interval : Nat} {expr expr' : Delayed} {condition : Lambda}
    {result : Option Lambda} {timeout : Nat} (run : (expr.run b).Refines (expr'.run b'))
    (fuel attempt elapsed : Nat) :
    (attemptSync deeper interval ⟨expr, condition, result, timeout⟩ b fuel attempt elapsed).Refines
      (attemptSync deeper' interval ⟨expr', condition, result, timeout⟩ b' fuel attempt
        elapsed) := by
  induction fuel generalizing attempt elapsed with
  | zero => exact .exhausted
  | succ fuel ih =>
    rw [attemptSync, attemptSync, Binding.source_eq_of_scope same]
    refine run.bind fun current => ?_
    refine (below.invoke condition _ b b' same).bind fun satisfied => ?_
    split
    · cases result with
      | none => exact .refl _
      | some l => exact below.invoke l _ b b' same
    · split
      · exact .refl _
      · exact ih _ _

theorem synchronize_refines :
    (synchronize engine deeper args b).Refines (synchronize engine deeper' args' b') := by
  have count := refines.length_eq
  rw [synchronize, synchronize]
  -- What follows once the arguments are told apart.
  have waits {expr expr' condition condition' : Delayed}
      {result result' timeout timeout' : Option Delayed}
      (first : expr.Refines b b' expr') (second : condition.Refines b b' condition')
      (third : Option.Rel (Delayed.Refines b b') result result')
      (fourth : Option.Rel (Delayed.Refines b b') timeout timeout') :
      Eval.Refines
        (do
          let condition ← lambdaArgument condition b
          let result ← result.mapM fun result => lambdaArgument result b
          let seconds ← syncSeconds engine timeout b
          attemptSync deeper engine.syncInterval ⟨expr, condition, result, 1000 * seconds⟩ b
            deeper.fuel 1 0)
        (do
          let condition ← lambdaArgument condition' b'
          let result ← result'.mapM fun result => lambdaArgument result b'
          let seconds ← syncSeconds engine timeout' b'
          attemptSync deeper' engine.syncInterval ⟨expr', condition, result, 1000 * seconds⟩ b'
            deeper'.fuel 1 0) := by
    refine (lambdaArgument_refines second).bind fun condition => ?_
    refine Eval.Refines.bind ?_ fun result => ?_
    · cases third with
      | none => exact .refl _
      | some d => exact .map _ (lambdaArgument_refines d)
    · refine (syncSeconds_refines fourth).bind fun seconds => ?_
      rw [below.fuel]
      exact attemptSync_refines below same first.run _ _ _
  obtain _ | ⟨expr, _ | ⟨condition, _ | ⟨result, _ | ⟨timeout, _ | _⟩⟩⟩⟩ := refines
  · exact .fail_bind
  · exact .fail_bind
  · simp only [syncArguments, pure_bind]
    exact waits expr condition .none .none
  · simp only [syncArguments, pure_bind]
    exact waits expr condition (.some result) .none
  · simp only [syncArguments, pure_bind]
    exact waits expr condition (.some result) (.some timeout)
  · simp only [syncArguments, wrongCount, count]
    exact .fail_bind

omit below same in
theorem allPositional_of_refines :
    (args.any fun d => !d.isPositional) = args'.any fun d => !d.isPositional := by
  induction refines with
  | nil => rfl
  | cons first _ ih => rw [List.any_cons, List.any_cons, ih, first.isPositional]

omit below same in
/-- A call of one argument that is looked at. -/
theorem onlyArgument_refines {id : Intrinsic} {next next' : Delayed → Eval Resolved}
    (later : ∀ d d', d.Refines b b' d' → (next d).Refines (next' d')) :
    (onlyArgument id args >>= next).Refines (onlyArgument id args' >>= next') := by
  have count := refines.length_eq
  obtain _ | ⟨d, _ | _⟩ := refines
  · exact .refl _
  · exact later _ _ d
  · simp only [onlyArgument, wrongCount, count]
    exact .fail_bind

theorem Intrinsic.run_refines (noStubs : b.document.stubs = []) (id : Intrinsic)
    (placed : id = .stub → args.isEmpty = false) :
    (id.run engine deeper args b).Refines (id.run engine deeper' args' b') := by
  unfold Intrinsic.run
  rw [allPositional_of_refines refines]
  split
  · exact .refl _
  · cases id with
    | merge => exact mergeDocuments_refines below same refines
    | catchError => exact catchErrors_refines below same refines
    | sync => exact synchronize_refines below same refines
    | valid =>
      refine onlyArgument_refines refines fun d d' known => ?_
      exact (observe_refines (runAsItIs_refines same known)).bind fun _ => .refl _
    | defined =>
      refine onlyArgument_refines refines fun d d' known => ?_
      exact (observe_refines (runAsItIs_refines same known)).bind fun _ => .refl _
    | require =>
      refine onlyArgument_refines refines fun d d' known => ?_
      rw [known.expr]
      exact known.run.bind fun _ => .refl _
    | stub => exact stubValue_refines same refines noStubs (placed rfl)

end

/-- Without stubs, a merge form that names no place in its message has the same outcome at every
place. -/
theorem MergeExpr.run_eq {engine : Engine} {m : MergeExpr} {b b' : Binding}
    (noStubs : b.document.stubs = []) (noStubs' : b'.document.stubs = [])
    (placed : (m.required && m.path.isNone) = false) : m.run engine b = m.run engine b' := by
  rw [MergeExpr.run, MergeExpr.run]
  simp only [Binding.stubValue?_of_noStubs noStubs, Binding.stubValue?_of_noStubs noStubs']
  cases shape : m.path with
  | some path => rfl
  | none =>
    rw [shape, Option.isNone_none, Bool.and_true] at placed
    rw [placed]
    rfl

/-! ### Expressions -/

theorem functionName?_of_scope {engine : Engine} {callee : Expr} {b b' : Binding}
    (same : b.scope = b'.scope) :
    functionName? engine callee b = functionName? engine callee b' := by
  rw [functionName?, functionName?, same]

theorem callFunction_refines {deeper deeper' : Deeper} {name : String} {function : Function}
    {args : List ArgumentValue} {b b' : Binding} (known : Function.Refines function)
    (below : deeper.Refines deeper') (same : b.scope = b'.scope) :
    (callFunction deeper name function args b).Refines
      (callFunction deeper' name function args b') :=
  (Eval.Refines.refl _).bind fun values => known deeper deeper' values b b' below same

/-- The functions of the engine depend on their place through its scope alone. -/
def Engine.FunctionsRefine (engine : Engine) : Prop :=
  ∀ name function, Fields.find? engine.functions name = some function → Function.Refines function

section

variable {engine : Engine} {deeper deeper' : Deeper} {b b' : Binding}
  (functions : engine.FunctionsRefine) (below : deeper.Refines deeper')
  (same : b.scope = b'.scope) (noStubs : b.document.stubs = [])

include functions below same noStubs

set_option linter.unusedSectionVars false in
mutual

/-- An expression that does not ask for its place is refined at another place of the same scope. -/
theorem evaluate_refines : ∀ e : Expr, e.isPlaceFree →
    (evaluate engine deeper e b).Refines (evaluate engine deeper' e b')
  | .nil, _ => by
    rw [evaluate, evaluate]
    exact .refl _
  | .undefined, _ => by
    rw [evaluate, evaluate]
    exact .refl _
  | .bool _, _ => by
    rw [evaluate, evaluate]
    exact .refl _
  | .int _, _ => by
    rw [evaluate, evaluate]
    exact .refl _
  | .float _, _ => by
    rw [evaluate, evaluate]
    exact .refl _
  | .string _, _ => by
    rw [evaluate, evaluate]
    exact .refl _
  | .reference r, _ => by
    rw [evaluate, evaluate, same]
    exact .refl _
  | .grouped inner, free => by
    rw [evaluate, evaluate]
    exact evaluate_refines inner (Expr.isPlaceFree_single free rfl)
  | .arithmetic op lhs rhs, free => by
    obtain ⟨left, right⟩ := Expr.isPlaceFree_pair free rfl
    rw [evaluate, evaluate]
    refine (evaluate_refines lhs left).bind fun lhs => ?_
    exact (evaluate_refines rhs right).bind fun rhs => .refl _
  | .concatenation lhs rhs, free => by
    obtain ⟨left, right⟩ := Expr.isPlaceFree_pair free rfl
    rw [evaluate, evaluate, Binding.source_eq_of_scope same]
    refine (evaluate_refines lhs left).bind fun lhs => ?_
    exact (evaluate_refines rhs right).bind fun rhs => .refl _
  | .comparison op lhs rhs, free => by
    obtain ⟨left, right⟩ := Expr.isPlaceFree_pair free rfl
    rw [evaluate, evaluate]
    refine (evaluate_refines lhs left).bind fun lhs => ?_
    exact (evaluate_refines rhs right).bind fun rhs => .refl _
  | .fallback lhs rhs, free => by
    obtain ⟨left, right⟩ := Expr.isPlaceFree_pair free rfl
    rw [evaluate, evaluate]
    refine (evaluate_refines lhs left).outcome.bind fun outcome => ?_
    split
    · split
      · exact evaluate_refines rhs right
      · exact .refl _
    · exact evaluate_refines rhs right
    · exact .refl _
  | .logical op lhs rhs, free => by
    obtain ⟨left, right⟩ := Expr.isPlaceFree_pair free rfl
    rw [evaluate, evaluate]
    refine (evaluate_refines lhs left).bind fun lhs => ?_
    simp only
    split
    · exact .refl _
    · exact .refl _
    · exact (evaluate_refines rhs right).bind fun rhs => .refl _
  | .not operand, free => by
    rw [evaluate, evaluate]
    exact (evaluate_refines operand (Expr.isPlaceFree_single free rfl)).bind fun operand => .refl _
  | .conditional condition onTrue onFalse, free => by
    have free := (Expr.isPlaceFree_iff.mp free).2
    rw [evaluate, evaluate]
    refine (evaluate_refines condition (free _ (by simp [Expr.operands]))).bind fun condition => ?_
    split
    · exact evaluate_refines onTrue (free _ (by simp [Expr.operands]))
    · exact evaluate_refines onFalse (free _ (by simp [Expr.operands]))
  | .list items, free => by
    rw [evaluate, evaluate]
    exact (evaluateItems_refines items (Expr.isPlaceFree_iff.mp free).2).bind fun nodes => .refl _
  | .range start stop, free => by
    obtain ⟨first, last⟩ := Expr.isPlaceFree_pair free rfl
    rw [evaluate, evaluate, Binding.source_eq_of_scope same]
    refine (evaluate_refines start first).bind fun start => ?_
    refine (Eval.Refines.refl _).bind fun start => ?_
    exact (evaluate_refines stop last).bind fun stop => .refl _
  | .map entries, free => by
    have free := List.forall_mem_map.mp (Expr.isPlaceFree_iff.mp free).2
    rw [evaluate, evaluate]
    exact (evaluateEntries_refines entries free).bind fun fields => .refl _
  | .call callee args, free => by
    obtain ⟨called, operands⟩ := List.forall_mem_cons.mp (Expr.isPlaceFree_iff.mp free).2
    have given := List.forall_mem_map.mp operands
    rw [evaluate, evaluate, functionName?_of_scope same]
    split
    · split
      · exact .refl _
      · next function known =>
        exact (evaluateArguments_refines args given).bind fun arguments =>
          callFunction_refines (functions _ function known) below same
    · refine (evaluate_refines callee called).bind fun value => ?_
      refine (Eval.Refines.refl _).bind fun l => ?_
      exact (evaluateArguments_refines args given).bind fun arguments =>
        below.invoke l arguments b b' same
  | .intrinsic id args, free => by
    obtain ⟨placed, given⟩ := Expr.isPlaceFree_iff.mp free
    rw [evaluate, evaluate]
    refine Intrinsic.run_refines below same (delay_refines args (List.forall_mem_map.mp given))
      noStubs id ?_
    rintro rfl
    cases args with
    | nil => cases placed
    | cons argument rest => cases argument <;> rw [delay] <;> rfl
  | .curry callee args, free => by
    obtain ⟨called, operands⟩ := List.forall_mem_cons.mp (Expr.isPlaceFree_iff.mp free).2
    have given := List.forall_mem_map.mp operands
    rw [evaluate, evaluate]
    refine (evaluate_refines callee called).bind fun value => ?_
    refine (Eval.Refines.refl _).bind fun l => ?_
    exact (evaluateArguments_refines args given).bind fun arguments => .refl _
  | .lambda expr, _ => by
    rw [evaluate, evaluate, same]
    exact .refl _
  | .merge m, free => by
    rw [evaluate, evaluate]
    exact .of_eq (MergeExpr.run_eq noStubs (Binding.stubs_of_scope same noStubs)
      (Expr.isPlaceFree_iff.mp free).1)
  | .auto, free => nomatch (Expr.isPlaceFree_iff.mp free).1
  | .marked markers none, _ => by
    rw [evaluate, evaluate]
    exact .refl _
  | .marked markers (some inner), free => by
    rw [evaluate, evaluate, Binding.source_eq_of_scope same]
    split
    · exact .refl _
    · exact (evaluate_refines inner (Expr.isPlaceFree_single free rfl)).bind fun resolved => .refl _
  | .prefer operand, free => by
    rw [evaluate, evaluate]
    exact (evaluate_refines operand (Expr.isPlaceFree_single free rfl)).bind fun resolved => .refl _
  | .substitution operand, free => by
    rw [evaluate, evaluate]
    refine (evaluate_refines operand (Expr.isPlaceFree_single free rfl)).bind fun resolved => ?_
    split
    · exact below.flowNested _ b b' none none
    · exact .refl _
  | .dynamic base index, free => by
    obtain ⟨based, indexed⟩ := Expr.isPlaceFree_pair free rfl
    rw [evaluate, evaluate, Binding.source_eq_of_scope same]
    refine (evaluate_refines base based).bind fun base => ?_
    exact (evaluate_refines index indexed).bind fun index => .refl _
  | .slice base start stop, free => by
    obtain ⟨based, bounds⟩ := List.forall_mem_cons.mp (Expr.isPlaceFree_iff.mp free).2
    obtain ⟨first, last⟩ := List.forall_mem_append.mp bounds
    rw [evaluate, evaluate]
    refine (evaluate_refines base based).bind fun base => ?_
    refine (evaluateBound_refines start first).bind fun start => ?_
    exact (evaluateBound_refines stop last).bind fun stop => .refl _
  | .projection base path, free => by
    rw [evaluate, evaluate, Binding.source_eq_of_scope same]
    exact (evaluate_refines base (Expr.isPlaceFree_single free rfl)).bind fun base => .refl _
  | .qualified base path, free => by
    rw [evaluate, evaluate, Binding.source_eq_of_scope same]
    exact (evaluate_refines base (Expr.isPlaceFree_single free rfl)).bind fun base => .refl _

theorem evaluateItems_refines : ∀ items : List Expr, (∀ item ∈ items, item.isPlaceFree) →
    (evaluateItems engine deeper items b).Refines (evaluateItems engine deeper' items b')
  | [], _ => by
    rw [evaluateItems, evaluateItems]
    exact .refl _
  | e :: rest, free => by
    obtain ⟨first, others⟩ := List.forall_mem_cons.mp free
    rw [evaluateItems, evaluateItems, Binding.source_eq_of_scope same]
    refine (evaluate_refines e first).bind fun resolved => ?_
    exact (evaluateItems_refines rest others).bind fun nodes => .refl _

theorem evaluateEntries_refines : ∀ entries : List (String × Expr),
    (∀ entry ∈ entries, entry.2.isPlaceFree) →
    (evaluateEntries engine deeper entries b).Refines (evaluateEntries engine deeper' entries b')
  | [], _ => by
    rw [evaluateEntries, evaluateEntries]
    exact .refl _
  | (key, e) :: rest, free => by
    obtain ⟨first, others⟩ := List.forall_mem_cons.mp free
    rw [evaluateEntries, evaluateEntries, Binding.source_eq_of_scope same]
    refine (evaluate_refines e first).bind fun resolved => ?_
    exact (evaluateEntries_refines rest others).bind fun fields => .refl _

theorem evaluateBound_refines : ∀ bound : Option Expr, (∀ e ∈ bound.toList, e.isPlaceFree) →
    (evaluateBound engine deeper bound b).Refines (evaluateBound engine deeper' bound b')
  | none, _ => by
    rw [evaluateBound, evaluateBound]
    exact .refl _
  | some e, free => by
    rw [evaluateBound, evaluateBound]
    exact (evaluate_refines e (free e (.head _))).bind fun resolved => .refl _

theorem evaluateArguments_refines : ∀ args : List Argument,
    (∀ argument ∈ args, argument.expr.isPlaceFree) →
    (evaluateArguments engine deeper args b).Refines (evaluateArguments engine deeper' args b')
  | [], _ => by
    rw [evaluateArguments, evaluateArguments]
    exact .refl _
  | .positional e :: rest, free => by
    obtain ⟨first, others⟩ := List.forall_mem_cons.mp free
    rw [evaluateArguments, evaluateArguments, Binding.source_eq_of_scope same]
    refine (evaluate_refines e first).bind fun resolved => ?_
    exact (evaluateArguments_refines rest others).bind fun arguments => .refl _
  | .named name e :: rest, free => by
    obtain ⟨first, others⟩ := List.forall_mem_cons.mp free
    rw [evaluateArguments, evaluateArguments, Binding.source_eq_of_scope same]
    refine (evaluate_refines e first).bind fun resolved => ?_
    exact (evaluateArguments_refines rest others).bind fun arguments => .refl _
  | .indexed index e :: rest, free => by
    obtain ⟨first, others⟩ := List.forall_mem_cons.mp free
    rw [evaluateArguments, evaluateArguments, Binding.source_eq_of_scope same]
    refine (evaluate_refines e first).bind fun resolved => ?_
    exact (evaluateArguments_refines rest others).bind fun arguments => .refl _
  | .spread e :: rest, free => by
    obtain ⟨first, others⟩ := List.forall_mem_cons.mp free
    rw [evaluateArguments, evaluateArguments]
    refine (evaluate_refines e first).bind fun resolved => ?_
    refine (Eval.Refines.refl _).bind fun items => ?_
    exact (evaluateArguments_refines rest others).bind fun arguments => .refl _

theorem delay_refines : ∀ args : List Argument, (∀ argument ∈ args, argument.expr.isPlaceFree) →
    List.Forall₂ (Delayed.Refines b b') (delay engine deeper args) (delay engine deeper' args)
  | [], _ => by
    rw [delay, delay]
    exact .nil
  | .positional e :: rest, free => by
    obtain ⟨first, others⟩ := List.forall_mem_cons.mp free
    rw [delay, delay]
    exact .cons ⟨rfl, rfl, evaluate_refines e first⟩ (delay_refines rest others)
  | .named name e :: rest, free => by
    obtain ⟨first, others⟩ := List.forall_mem_cons.mp free
    rw [delay, delay]
    exact .cons ⟨rfl, rfl, evaluate_refines e first⟩ (delay_refines rest others)
  | .indexed index e :: rest, free => by
    obtain ⟨first, others⟩ := List.forall_mem_cons.mp free
    rw [delay, delay]
    exact .cons ⟨rfl, rfl, evaluate_refines e first⟩ (delay_refines rest others)
  | .spread e :: rest, free => by
    obtain ⟨first, others⟩ := List.forall_mem_cons.mp free
    rw [delay, delay]
    exact .cons ⟨rfl, rfl, evaluate_refines e first⟩ (delay_refines rest others)

end

end

end Cascade
