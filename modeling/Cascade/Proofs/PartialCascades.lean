import Cascade.Proofs.FinalReferences

/-!
# Cascades that keep unresolved nodes

An engine may keep unresolved nodes and report them, or fail with the report. No evaluation and no
pass asks for this setting: it is read where a stub is prepared for the document, and where the
outcome of the document is made. Nested documents are prepared without it. So a strict cascade that
has an outcome has it in both modes, and a lenient one gives as part of its outcome the report with
which the strict one fails.

## Main definitions

* `Engine.keeping`: the engine with the setting given.

## Main statements

* `evaluate_keeping`, `flowNode_keeping`, `level_keeping`: neither evaluation nor passes depend on the
  setting, at any depth.
* `Engine.prepared_keeping`: stubs that a strict engine prepares are prepared alike by a lenient one.
* `cascade_keeping`: how the outcomes of the two modes go together.
-/

namespace Cascade

open Eval

/-- The engine that keeps unresolved nodes, or does not. -/
def Engine.keeping (engine : Engine) (keep : Bool) : Engine := { engine with keepUnresolved := keep }

section

variable {engine : Engine} {keep : Bool} {deeper : Deeper}

@[simp] theorem Engine.defaultKey_keeping : (engine.keeping keep).defaultKey = engine.defaultKey := rfl

@[simp] theorem Engine.maxPasses_keeping : (engine.keeping keep).maxPasses = engine.maxPasses := rfl

@[simp] theorem Engine.maxDepth_keeping : (engine.keeping keep).maxDepth = engine.maxDepth := rfl

@[simp] theorem Engine.functions_keeping : (engine.keeping keep).functions = engine.functions := rfl

@[simp] theorem Engine.keepUnresolved_keeping : (engine.keeping keep).keepUnresolved = keep := rfl

/-! ### Evaluation -/

theorem functionName?_keeping : functionName? (engine.keeping keep) = functionName? engine := rfl

theorem run_keeping : Intrinsic.run (engine.keeping keep) = Intrinsic.run engine := rfl

theorem MergeExpr.run_keeping : MergeExpr.run (engine.keeping keep) = MergeExpr.run engine := rfl

mutual

theorem evaluate_keeping : ∀ e b,
    evaluate (engine.keeping keep) deeper e b = evaluate engine deeper e b
  | .nil, _ | .undefined, _ | .bool _, _ | .int _, _ | .float _, _ | .string _, _ | .reference _, _
  | .lambda _, _ | .merge _, _ | .auto, _ | .marked _ none, _ => rfl
  | .grouped inner, b => by rw [evaluate, evaluate, evaluate_keeping inner]
  | .arithmetic op lhs rhs, b => by
    rw [evaluate, evaluate, evaluate_keeping lhs, evaluate_keeping rhs]
  | .concatenation lhs rhs, b => by
    rw [evaluate, evaluate, evaluate_keeping lhs, evaluate_keeping rhs]
  | .comparison op lhs rhs, b => by
    rw [evaluate, evaluate, evaluate_keeping lhs, evaluate_keeping rhs]
  | .fallback lhs rhs, b => by
    rw [evaluate, evaluate, evaluate_keeping lhs, evaluate_keeping rhs]
  | .logical op lhs rhs, b => by
    rw [evaluate, evaluate, evaluate_keeping lhs, evaluate_keeping rhs]
  | .not operand, b => by rw [evaluate, evaluate, evaluate_keeping operand]
  | .conditional condition onTrue onFalse, b => by
    rw [evaluate, evaluate, evaluate_keeping condition, evaluate_keeping onTrue,
      evaluate_keeping onFalse]
  | .list items, b => by rw [evaluate, evaluate, evaluateItems_keeping items]
  | .range start stop, b => by
    rw [evaluate, evaluate, evaluate_keeping start, evaluate_keeping stop]
  | .map entries, b => by rw [evaluate, evaluate, evaluateEntries_keeping entries]
  | .call callee args, b => by
    rw [evaluate, evaluate, functionName?_keeping, Engine.functions_keeping,
      evaluate_keeping callee, evaluateArguments_keeping args]
  | .intrinsic id args, b => by rw [evaluate, evaluate, run_keeping, delay_keeping args]
  | .curry callee args, b => by
    rw [evaluate, evaluate, evaluate_keeping callee, evaluateArguments_keeping args]
  | .marked markers (some inner), b => by rw [evaluate, evaluate, evaluate_keeping inner]
  | .prefer operand, b => by rw [evaluate, evaluate, evaluate_keeping operand]
  | .substitution operand, b => by rw [evaluate, evaluate, evaluate_keeping operand]
  | .dynamic base index, b => by
    rw [evaluate, evaluate, evaluate_keeping base, evaluate_keeping index,
      Engine.defaultKey_keeping]
  | .slice base start stop, b => by
    rw [evaluate, evaluate, evaluate_keeping base, evaluateBound_keeping start,
      evaluateBound_keeping stop]
  | .projection base path, b => by
    rw [evaluate, evaluate, evaluate_keeping base, Engine.defaultKey_keeping]
  | .qualified base path, b => by
    rw [evaluate, evaluate, evaluate_keeping base, Engine.defaultKey_keeping]

theorem evaluateItems_keeping : ∀ items b,
    evaluateItems (engine.keeping keep) deeper items b = evaluateItems engine deeper items b
  | [], _ => rfl
  | e :: rest, b => by
    rw [evaluateItems, evaluateItems, evaluate_keeping e, evaluateItems_keeping rest]

theorem evaluateEntries_keeping : ∀ entries b,
    evaluateEntries (engine.keeping keep) deeper entries b = evaluateEntries engine deeper entries b
  | [], _ => rfl
  | (key, e) :: rest, b => by
    rw [evaluateEntries, evaluateEntries, evaluate_keeping e, evaluateEntries_keeping rest]

theorem evaluateBound_keeping : ∀ bound b,
    evaluateBound (engine.keeping keep) deeper bound b = evaluateBound engine deeper bound b
  | none, _ => rfl
  | some e, b => by rw [evaluateBound, evaluateBound, evaluate_keeping e]

theorem evaluateArguments_keeping : ∀ args b,
    evaluateArguments (engine.keeping keep) deeper args b = evaluateArguments engine deeper args b
  | [], _ => rfl
  | .positional e :: rest, b | .named _ e :: rest, b | .indexed _ e :: rest, b
  | .spread e :: rest, b => by
    rw [evaluateArguments, evaluateArguments, evaluate_keeping e, evaluateArguments_keeping rest]

theorem delay_keeping : ∀ args,
    delay (engine.keeping keep) deeper args = delay engine deeper args
  | [] => rfl
  | .positional e :: rest | .named _ e :: rest | .indexed _ e :: rest | .spread e :: rest => by
    rw [delay, delay, funext (evaluate_keeping e), delay_keeping rest]

end

theorem outcomeOf_keeping : outcomeOf (engine.keeping keep) deeper = outcomeOf engine deeper := by
  funext e b
  rw [outcomeOf, outcomeOf, evaluate_keeping]

/-! ### Passes -/

section

variable {below : FlowBelow} {node : Node} {b : Binding} {overridable : Bool}

theorem flowExpression_keeping {e : Expr} :
    flowExpression (engine.keeping keep) deeper node e b overridable =
      flowExpression engine deeper node e b overridable := by
  rw [flowExpression, flowExpression, outcomeOf_keeping]
  rfl

theorem flowString_keeping {text : String} :
    flowString (engine.keeping keep) deeper node text b overridable =
      flowString engine deeper node text b overridable := by
  unfold flowString
  simp only [flowExpression_keeping]
  rfl

theorem flowMap_keeping {fields : Fields Node} :
    flowMap (engine.keeping keep) deeper below node fields b overridable =
      flowMap engine deeper below node fields b overridable := by
  unfold flowMap flowPlainMap flowDirective
  rw [outcomeOf_keeping]
  rfl

theorem flowList_keeping {items : List Node} :
    flowList (engine.keeping keep) deeper below node items b overridable =
      flowList engine deeper below node items b overridable := by
  unfold flowList flowListDirective
  rw [outcomeOf_keeping]
  rfl

end

theorem flowNode_keeping {fuel : Nat} :
    flowNode (engine.keeping keep) deeper fuel = flowNode engine deeper fuel := by
  induction fuel with
  | zero => rfl
  | succ fuel ih =>
    funext node b overridable
    rw [flowNode, flowNode, ih]
    simp only [flowMap_keeping, flowList_keeping, flowString_keeping, flowExpression_keeping]
    rfl

theorem pass_keeping {s : Setting} : pass (engine.keeping keep) deeper s = pass engine deeper s := by
  funext root
  rw [pass, pass, flowNode_keeping]

theorem settle_keeping {s : Setting} :
    settle (engine.keeping keep) deeper s = settle engine deeper s := by
  have within : ∀ passes root, settleWithin (engine.keeping keep) deeper s passes root =
      settleWithin engine deeper s passes root := by
    intro passes
    induction passes with
    | zero => exact fun _ => rfl
    | succ passes ih =>
      intro root
      simp only [settleWithin, pass_keeping, ih]
  funext root
  exact within engine.maxPasses _

theorem settled_keeping {s : Setting} :
    settled (engine.keeping keep) deeper s = settled engine deeper s := by
  funext root
  rw [settled, settled, settle_keeping]
  rfl

theorem prepareFrom_keeping {base : DocumentId} {outer : Option Scope} {depth number : Nat}
    {keep' : Bool} {stubs : List Node} :
    prepareFrom (engine.keeping keep) deeper base outer depth keep' number stubs =
      prepareFrom engine deeper base outer depth keep' number stubs := by
  induction stubs generalizing number with
  | nil => rfl
  | cons stub rest ih =>
    rw [prepareFrom, prepareFrom, ih]
    simp only [settled_keeping]
    rfl

/-! ### Levels -/

theorem flowNested_keeping : flowNested (engine.keeping keep) deeper = flowNested engine deeper := by
  funext node b locals stubs
  simp only [flowNested, prepareNested, prepare, prepareFrom_keeping, settle_keeping]
  rfl

theorem invokeLambda_keeping :
    invokeLambda (engine.keeping keep) deeper = invokeLambda engine deeper := by
  have parameter : parameterNode (engine.keeping keep) deeper = parameterNode engine deeper := by
    funext scope caller layer slot param
    unfold parameterNode
    simp only [evaluate_keeping]
  have layers : ∀ params position scope caller slots layer,
      parameterLayer (engine.keeping keep) deeper scope caller slots position params layer =
        parameterLayer engine deeper scope caller slots position params layer := by
    intro params
    induction params with
    | nil => exact fun _ _ _ _ _ => rfl
    | cons param rest ih =>
      intro position scope caller slots layer
      simp only [parameterLayer, parameter, ih]
  funext l args caller
  simp only [invokeLambda, layers, evaluate_keeping]

theorem level_keeping {fuel levels : Nat} :
    level (engine.keeping keep) fuel levels = level engine fuel levels := by
  induction levels with
  | zero => rfl
  | succ levels ih => rw [level, level, ih, invokeLambda_keeping, flowNested_keeping]

theorem Engine.below_keeping {depth : Nat} :
    (engine.keeping keep).below depth = engine.below depth := level_keeping

/-! ### Whole documents -/

theorem Engine.settledTree_keeping {template : Node} {stubs : List Node} {state : Option Node} :
    (engine.keeping keep).settledTree template stubs state =
      engine.settledTree template stubs state := by
  unfold settledTree
  simp only [settled_keeping, below_keeping]
  rfl

theorem Engine.prepared_keeping {stubs : List Node} :
    (engine.keeping keep).prepared stubs = (do
      let base ← ExceptT.lift Run.newDocument
      prepareFrom engine (engine.below 0) base none 0 keep 1 stubs) := by
  rw [prepared]
  simp only [prepare, prepareFrom_keeping, below_keeping]
  rfl

end

/-! ### How documents fail -/

/-- A computation that fails does so in its first part, or in what follows. -/
theorem Flow.cases_of_bind_error {α β : Type} {x : Flow α} {next : α → Flow β} {e : FlowError}
    {world world' : World} (fails : (x >>= next) world = some (.error e, world')) :
    x world = some (.error e, world') ∨
      ∃ a middle, x world = some (.ok a, middle) ∧ next a middle = some (.error e, world') := by
  obtain ⟨outcome, middle, first, rest⟩ := Run.eq_of_bind fails
  cases outcome with
  | ok a => exact .inr ⟨a, middle, first, rest⟩
  | error failure =>
    cases rest
    exact .inl first

theorem Flow.lift_ne_error {α : Type} {run : Run α} {e : FlowError} {world world' : World} :
    (ExceptT.lift run : Flow α) world ≠ some (.error e, world') := by
  intro fails
  obtain ⟨value, middle, -, made⟩ := Run.eq_of_bind
    (show (run >>= fun value => pure (Except.ok value) : Run (Except FlowError α)) world = _
      from by rw [← map_eq_pure_bind]; exact fails)
  cases made

section

variable {engine : Engine} {deeper : Deeper} {world world' : World}

/-- A document that does not settle needs more passes. -/
theorem eq_passLimit_of_settled {s : Setting} {root : Node} {e : FlowError}
    (fails : settled engine deeper s root world = some (.error e, world')) :
    e = .passLimit engine.maxPasses := by
  rcases Flow.cases_of_bind_error fails with first | ⟨result, middle, -, rest⟩
  · exact absurd first Flow.lift_ne_error
  · cases result with
    | none =>
      cases rest
      rfl
    | some tree => cases rest

/-- A stub that is prepared, in one mode or the other. -/
theorem prepareFrom_cons {base : DocumentId} {outer : Option Scope} {depth number : Nat}
    {keep : Bool} {stub : Node} {rest : List Node} :
    prepareFrom engine deeper base outer depth keep number (stub :: rest) = (do
      let later ← prepareFrom engine deeper base outer depth keep (number + 1) rest
      let tree ← settled engine deeper
        { id := base.nested ["stub" ++ toString number], stubs := later.stubs, outer, depth } stub
      let report := Report.collect tree engine.defaultKey
      if !report.isEmpty && !keep then throw (.unresolved report)
      else return ⟨Node.orNil (tree.strip? false) tree.source :: later.stubs,
        later.unresolved.absorb report⟩) := rfl

theorem Report.eq_of_isEmpty {report : Report} (empty : report.isEmpty = true) : report = {} := by
  obtain ⟨entries⟩ := report
  obtain rfl : entries = [] := List.isEmpty_iff.mp empty
  rfl

/-- What strict preparation makes of stubs has nothing unresolved, and lenient preparation makes it
as well. -/
theorem prepareFrom_lenient {base : DocumentId} {outer : Option Scope} {depth number : Nat}
    {stubs : List Node} {prepared : Prepared}
    (strict : prepareFrom engine deeper base outer depth false number stubs world =
      some (.ok prepared, world')) :
    prepared.unresolved = {} ∧
      prepareFrom engine deeper base outer depth true number stubs world =
        some (.ok prepared, world') := by
  induction stubs generalizing number prepared world world' with
  | nil =>
    cases strict
    exact ⟨rfl, rfl⟩
  | cons stub rest ih =>
    rw [prepareFrom_cons] at strict ⊢
    obtain ⟨later, middle, before, onward⟩ := Flow.eq_of_bind strict
    obtain ⟨tree, last, settles, made⟩ := Flow.eq_of_bind onward
    obtain ⟨complete, again⟩ := ih before
    rw [Flow.bind_of_ok again,
      Flow.bind_of_ok (show settled engine deeper _ stub middle = _ from settles)]
    cases empty : (Report.collect tree engine.defaultKey).isEmpty with
    | false =>
      simp only [empty] at made
      cases made
    | true =>
      simp only [empty, Bool.not_true, Bool.false_and, Bool.false_eq_true, if_false] at made ⊢
      cases made
      refine ⟨?_, rfl⟩
      rw [complete, Report.eq_of_isEmpty empty, absorb_empty]

/-- Lenient preparation does not fail with a report. -/
theorem prepareFrom_lenient_ne {base : DocumentId} {outer : Option Scope} {depth number : Nat}
    {stubs : List Node} {report : Report} :
    prepareFrom engine deeper base outer depth true number stubs world ≠
      some (.error (.unresolved report), world') := by
  induction stubs generalizing number world world' with
  | nil => nofun
  | cons stub rest ih =>
    intro fails
    rw [prepareFrom_cons] at fails
    rcases Flow.cases_of_bind_error fails with first | ⟨later, middle, -, onward⟩
    · exact ih first
    · rcases Flow.cases_of_bind_error onward with first | ⟨tree, last, -, made⟩
      · cases eq_passLimit_of_settled first
      · simp only [Bool.not_true, Bool.and_false, Bool.false_eq_true, if_false] at made
        cases made

end

/-! ### Whole cascades -/

section

variable {engine : Engine} {world world' : World}

theorem Engine.prepared_lenient {stubs : List Node} {prepared : Prepared}
    (strict : (engine.keeping false).prepared stubs world = some (.ok prepared, world')) :
    prepared.unresolved = {} ∧
      (engine.keeping true).prepared stubs world = some (.ok prepared, world') := by
  rw [prepared_keeping] at strict ⊢
  obtain ⟨base, middle, opened, onward⟩ := Flow.eq_of_bind strict
  rw [Flow.bind_of_ok (show ExceptT.lift Run.newDocument world = _ from opened)]
  exact prepareFrom_lenient onward

theorem Engine.prepared_lenient_ne {stubs : List Node} {report : Report} :
    (engine.keeping true).prepared stubs world ≠ some (.error (.unresolved report), world') := by
  intro fails
  rw [prepared_keeping] at fails
  rcases Flow.cases_of_bind_error fails with first | ⟨base, middle, -, onward⟩
  · exact Flow.lift_ne_error first
  · exact prepareFrom_lenient_ne onward

theorem Engine.eq_passLimit_of_settledTree {template : Node} {stubs : List Node}
    {state : Option Node} {e : FlowError}
    (fails : engine.settledTree template stubs state world = some (.error e, world')) :
    e = .passLimit engine.maxPasses := by
  rcases Flow.cases_of_bind_error fails with first | ⟨id, middle, -, onward⟩
  · exact absurd first Flow.lift_ne_error
  · exact eq_passLimit_of_settled onward

/-- The outcome of a tree in the two modes: without anything unresolved it is the same, otherwise
the report is an error or a part of it. -/
theorem Engine.outcomeOfTree_cases (tree : Node) (kept : Report) :
    (∃ outcome : Outcome, outcome.unresolved = none ∧
      ∀ keep, (engine.keeping keep).outcomeOfTree tree kept = .ok outcome) ∨
    ∃ (report : Report) (outcome : Outcome), outcome.unresolved = some report ∧
      (engine.keeping false).outcomeOfTree tree kept = .error (.unresolved report) ∧
      (engine.keeping true).outcomeOfTree tree kept = .ok outcome := by
  unfold outcomeOfTree
  cases empty : ((Report.collect tree engine.defaultKey).absorb kept).isEmpty with
  | true =>
    refine .inl ⟨⟨finalDocument tree, stateDocument engine.defaultKey tree, none⟩, rfl, fun keep => ?_⟩
    simp only [defaultKey_keeping, empty]
    rfl
  | false =>
    refine .inr ⟨(Report.collect tree engine.defaultKey).absorb kept, ⟨finalDocument tree,
      stateDocument engine.defaultKey tree, some _⟩, rfl, ?_, ?_⟩
    · simp only [defaultKey_keeping, empty]
      rfl
    · simp only [defaultKey_keeping, empty]
      rfl

/-- A template with prepared stubs, in the two modes: it has the same outcome with nothing unresolved,
or a report which is an error in one mode and a part of the outcome in the other, or too few passes,
or no answer. -/
theorem Engine.applyPrepared_cases (template : Node) (prepared : Prepared) (state : Option Node)
    (world : World) :
    (∃ (outcome : Outcome) (world' : World), outcome.unresolved = none ∧
      ∀ keep, (engine.keeping keep).applyPrepared template prepared state world =
        some (.ok outcome, world')) ∨
    (∃ (report : Report) (outcome : Outcome) (world' : World), outcome.unresolved = some report ∧
      (engine.keeping false).applyPrepared template prepared state world =
        some (.error (.unresolved report), world') ∧
      (engine.keeping true).applyPrepared template prepared state world =
        some (.ok outcome, world')) ∨
    (∃ world', ∀ keep, (engine.keeping keep).applyPrepared template prepared state world =
      some (.error (.passLimit engine.maxPasses), world')) ∨
    ∀ keep, (engine.keeping keep).applyPrepared template prepared state world = none := by
  have opens (keep : Bool) : (engine.keeping keep).applyPrepared template prepared state =
      engine.settledTree template prepared.stubs state >>= fun tree =>
        ExceptT.mk (pure ((engine.keeping keep).outcomeOfTree tree prepared.unresolved)) := by
    rw [applyPrepared, settledTree_keeping]
  simp only [opens]
  cases settles : engine.settledTree template prepared.stubs state world with
  | none =>
    refine .inr (.inr (.inr fun keep => ?_))
    change ((engine.settledTree template prepared.stubs state : World → _) world).bind _ = none
    rw [settles]
    rfl
  | some answer =>
    obtain ⟨made, world'⟩ := answer
    cases made with
    | error e =>
      obtain rfl := eq_passLimit_of_settledTree settles
      exact .inr (.inr (.inl ⟨world', fun keep => Flow.bind_of_error settles⟩))
    | ok tree =>
      simp only [Flow.bind_of_ok settles]
      rcases outcomeOfTree_cases tree prepared.unresolved with
        ⟨outcome, complete, same⟩ | ⟨report, outcome, listed, fails, kept⟩
      · exact .inl ⟨outcome, world', complete, fun keep => by rw [same]; rfl⟩
      · exact .inr (.inl ⟨report, outcome, world', listed, by rw [fails]; rfl, by rw [kept]; rfl⟩)

/-- Keeping unresolved nodes is conservative. An outcome of the strict cascade is also that of the
lenient one, with nothing unresolved. If the template of the strict cascade fails with a report, the
lenient cascade has an outcome with just this report, and if it needs more passes, both do. The
lenient cascade never fails with a report. -/
theorem cascade_keeping (engine : Engine) (template : Node) (stubs : List Node)
    (state : Option Node) (world : World) :
    (∀ outcome world', (engine.keeping false).cascade template stubs state world =
        some (.ok outcome, world') →
      outcome.unresolved = none ∧
        (engine.keeping true).cascade template stubs state world = some (.ok outcome, world')) ∧
    (∀ prepared middle, (engine.keeping false).prepared stubs world = some (.ok prepared, middle) →
      (∀ report world', (engine.keeping false).applyPrepared template prepared state middle =
          some (.error (.unresolved report), world') →
        ∃ outcome, outcome.unresolved = some report ∧
          (engine.keeping true).cascade template stubs state world =
            some (.ok outcome, world')) ∧
      ∀ passes world', (engine.keeping false).applyPrepared template prepared state middle =
          some (.error (.passLimit passes), world') →
        (engine.keeping true).cascade template stubs state world =
          some (.error (.passLimit passes), world')) ∧
    ∀ report world', (engine.keeping true).cascade template stubs state world ≠
      some (.error (.unresolved report), world') := by
  have onward {keep : Bool} {prepared : Prepared} {middle : World}
      (ready : (engine.keeping keep).prepared stubs world = some (.ok prepared, middle)) :
      (engine.keeping keep).cascade template stubs state world =
        (engine.keeping keep).applyPrepared template prepared state middle :=
    Flow.bind_of_ok ready
  have cases (prepared : Prepared) (middle : World) :=
    engine.applyPrepared_cases template prepared state middle
  refine ⟨fun outcome world' yields => ?_, fun prepared middle ready => ⟨?_, ?_⟩,
    fun report world' fails => ?_⟩
  · obtain ⟨prepared, middle, ready, applied⟩ := Flow.eq_of_bind yields
    replace applied : (engine.keeping false).applyPrepared template prepared state middle = _ := applied
    rw [onward (Engine.prepared_lenient ready).2]
    rcases cases prepared middle with
      ⟨outcome', last, complete, same⟩ | ⟨_, _, _, -, strict, -⟩ | ⟨_, passes⟩ | none
    · cases applied.symm.trans (same false)
      exact ⟨complete, same true⟩
    · cases applied.symm.trans strict
    · cases applied.symm.trans (passes false)
    · cases applied.symm.trans (none false)
  · intro report world' fails
    rw [onward (Engine.prepared_lenient ready).2]
    rcases cases prepared middle with
      ⟨_, _, -, same⟩ | ⟨report', outcome, last, listed, strict, kept⟩ | ⟨_, passes⟩ | none
    · cases fails.symm.trans (same false)
    · cases fails.symm.trans strict
      exact ⟨outcome, listed, kept⟩
    · cases fails.symm.trans (passes false)
    · cases fails.symm.trans (none false)
  · intro passes world' fails
    rw [onward (Engine.prepared_lenient ready).2]
    rcases cases prepared middle with ⟨_, _, -, same⟩ | ⟨_, _, _, -, strict, -⟩ | ⟨_, both⟩ | none
    · cases fails.symm.trans (same false)
    · cases fails.symm.trans strict
    · cases fails.symm.trans (both false)
      exact both true
    · cases fails.symm.trans (none false)
  · rcases Flow.cases_of_bind_error fails with first | ⟨prepared, middle, -, applied⟩
    · exact Engine.prepared_lenient_ne first
    · rcases cases prepared middle with ⟨_, _, -, same⟩ | ⟨_, _, _, -, -, kept⟩ | ⟨_, both⟩ | none
      · cases applied.symm.trans (same true)
      · cases applied.symm.trans kept
      · cases applied.symm.trans (both true)
      · cases applied.symm.trans (none true)

end

/-- If something of the tree is reported, the strict engine fails. -/
theorem exists_report_of_isReported {engine : Engine} {template tree : Node} {prepared : Prepared}
    {state : Option Node} {world world' : World}
    (settles : engine.settledTree template prepared.stubs state world = some (.ok tree, world'))
    (reported : tree.isReported = true) :
    ∃ report, (engine.keeping false).applyPrepared template prepared state world =
      some (.error (.unresolved report), world') := by
  have listed : ((Report.collect tree engine.defaultKey).absorb prepared.unresolved).isEmpty =
      false := by
    rw [← Bool.not_eq_true]
    intro empty
    have clear := isEmpty_collect_iff.mp (isEmpty_of_absorb empty)
    rw [reported] at clear
    cases clear
  refine ⟨(Report.collect tree engine.defaultKey).absorb prepared.unresolved, ?_⟩
  rw [Engine.applyPrepared, Engine.settledTree_keeping, Flow.bind_of_ok settles,
    Engine.outcomeOfTree]
  simp only [Engine.defaultKey_keeping, listed]
  rfl

/-- A template settles, and something is unresolved in it. -/
def settlesUnresolved (engine : Engine) (template : Node) : Bool :=
  match engine.settledTree template [] none { documents := 1 } with
  | some (.ok tree, _) => tree.isReported
  | _ => false

/-- Two references to each other, and an expression that has a value. -/
def entangledTemplate : Node :=
  .ofJson "t" (.object [("a", .string "(( b ))"), ("b", .string "(( a ))"),
    ("c", .string "(( 1 + 1 ))")])

theorem cascade_entangledTemplate : ∃ report outcome world',
    (Engine.standard.keeping false).cascade entangledTemplate [] none {} =
      some (.error (.unresolved report), world') ∧
    (Engine.standard.keeping true).cascade entangledTemplate [] none {} =
      some (.ok outcome, world') ∧ outcome.unresolved = some report := by
  have settles : settlesUnresolved Engine.standard entangledTemplate = true := by decide +kernel
  unfold settlesUnresolved at settles
  split at settles
  · next tree world' settled =>
    have ready : (Engine.standard.keeping false).prepared [] {} =
        some (.ok {}, { documents := 1 }) := by
      rw [Engine.prepared_keeping]
      rfl
    have strict : (Engine.standard.keeping false).cascade entangledTemplate [] none {} =
        (Engine.standard.keeping false).applyPrepared entangledTemplate {} none
          { documents := 1 } := Flow.bind_of_ok ready
    have fails : ∃ report, (Engine.standard.keeping false).applyPrepared entangledTemplate {} none
        { documents := 1 } = some (.error (.unresolved report), world') :=
      exists_report_of_isReported settled settles
    obtain ⟨report, fails⟩ := fails
    obtain ⟨outcome, listed, kept⟩ :=
      ((cascade_keeping Engine.standard entangledTemplate [] none {}).2.1 {} _ ready).1 report
        world' fails
    exact ⟨report, outcome, world', strict.trans fails, kept, listed⟩
  · cases settles

end Cascade
