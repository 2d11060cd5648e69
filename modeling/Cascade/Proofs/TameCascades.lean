import Cascade.Flow.Apply
import Cascade.Proofs.FieldInsertion
import Cascade.Proofs.TameNesting

/-!
# Cascades of tame documents

A cascade of tame documents comes to an end: from some number of steps on, every number gives the
same answer. A pass over other documents need not end. What a directive puts into a map is flowed in
the same pass, at the same depth, and so is the branch that a control picks in it. If the directive
is in there again, the control runs again for ever, although no lambda is called and no document is
nested. The limit on passes does not help, since the first pass never ends.

## Main definitions

* `FitsAt`: setting a field at a path keeps a template tame.
* `Engine.preparedWithin`, `Engine.applyWithin`, `Engine.cascadeWithin`: a cascade and its parts with
  a number of steps to spare.
* `Engine.TerminatesAt`: what is tame comes to an end at a depth.
* `endlessTemplate`: a document that puts its directive into the map below it.

## Main statements

* `Engine.belowWithin_eq`: calls and nested documents lead one level deeper, down to a greatest depth.
* `Engine.flows_terminate`: a cascade of tame documents comes to an end, and so does all in it.
* `Engine.cascadeWithin_endless`: a cascade that does not.
-/

namespace Cascade

/-! ### Fields that stubs add -/

section

variable {node child value root tree : Node} {place : ChildPlace}

theorem Node.Still.set (still : node.Still) (new : child.Still)
    (plain : ∀ key, place = .field key → isBare key = true ∧ IsPlainKey key) :
    (node.set place child).Still := by
  obtain ⟨contents, annotations, source⟩ := node
  cases contents with
  | map fields =>
    cases place with
    | entry position => exact still
    | field key =>
      obtain ⟨bare, plain⟩ := plain key rfl
      obtain ⟨sorted, tame⟩ := Value.tame_map.mp still.1.asWritten.value
      refine Node.still_map_iff.mpr ⟨Node.tame_iff.mpr (Value.tame_map.mpr
        ⟨sorted.insert key child, fun field member => ?_⟩), fun field member => ?_⟩
      · rcases Fields.mem_insert member with rfl | old
        · exact ⟨bare, new.1.asWritten, fun _ => .inr new⟩
        · exact tame field old
      · rcases Fields.mem_insert member with rfl | old
        · exact ⟨plain, new⟩
        · exact (Node.still_map_iff.mp still).2 field old
  | list items =>
    cases place with
    | field key => exact still
    | entry position =>
      refine Node.still_list_iff.mpr fun item member => ?_
      rcases List.mem_or_eq_of_mem_set member with old | rfl
      · exact Node.still_list_iff.mp still item old
      · exact new
  | _ => exact still

theorem Node.Tame.set (tame : node.Tame true) (new : child.Tame true)
    (fits : ∀ key, place = .field key → FieldTame true (key, child)) :
    (node.set place child).Tame true := by
  obtain ⟨contents, annotations, source⟩ := node
  cases contents with
  | map fields =>
    cases place with
    | entry position => exact tame
    | field key =>
      obtain ⟨sorted, inside⟩ := Value.tame_map.mp tame.value
      refine Node.tame_iff.mpr
        (Value.tame_map.mpr ⟨sorted.insert key child, fun field member => ?_⟩)
      rcases Fields.mem_insert member with rfl | old
      · exact fits key rfl
      · exact inside field old
  | list items =>
    cases place with
    | field key => exact tame
    | entry position =>
      refine Node.tame_iff.mpr (Value.tame_list.mpr fun item member => ?_)
      rcases List.mem_or_eq_of_mem_set member with old | rfl
      · exact Value.tame_list.mp tame.value item old
      · exact new
  | _ => exact tame

/-- A child at the place of a field is in a map. -/
theorem Node.mem_of_get? {key : String} (known : node.get? (.field key) = some child) :
    ∃ fields, node.value = .map fields ∧ (key, child) ∈ fields := by
  obtain ⟨contents, annotations, source⟩ := node
  cases contents with
  | map fields => exact ⟨fields, rfl, Fields.mem_of_find? known⟩
  | _ => cases known

theorem Inherited.get? {N : Node → Prop} (inherited : Inherited N) (has : N node)
    (known : node.get? place = some child) : N child := by
  obtain ⟨contents, annotations, source⟩ := node
  cases contents with
  | map fields =>
    cases place with
    | field key => exact inherited.field has _ (Fields.mem_of_find? known)
    | entry position => cases known
  | list items =>
    cases place with
    | field key => cases known
    | entry position => exact inherited.item has _ (List.mem_of_getElem? known)
  | _ => cases known

/-- A still field with a plain name, set somewhere in a still tree, keeps it still. -/
theorem Node.Still.insertAt? {path : List String} (still : root.Still) (new : value.Still)
    (plain : ∀ last ∈ path.getLast?, isBare last = true ∧ IsPlainKey last)
    (made : root.insertAt? path value = some tree) : tree.Still := by
  induction path generalizing root tree with
  | nil => cases made
  | cons segment rest ih =>
    cases rest with
    | nil =>
      obtain ⟨-, rfl⟩ := Node.insertAt?_singleton_iff.mp made
      refine still.set new fun key same => ?_
      cases same
      exact plain segment rfl
    | cons next rest =>
      obtain ⟨child, after, known, below, rfl⟩ := Node.insertAt?_cons_iff.mp made
      have later := ih (inherited_still.get? still known)
        (fun last member => plain last (by rwa [List.getLast?_cons_cons])) below
      refine still.set later fun key here => ?_
      rw [here] at known
      obtain ⟨fields, shape, member⟩ := Node.mem_of_get? known
      obtain ⟨contents, annotations, source⟩ := root
      cases shape
      exact ⟨(still.1.value.fields _ member).bare, ((Node.still_map_iff.mp still).2 _ member).1⟩

theorem Node.not_list_of_expr? (reads : node.expr?.isSome = true) (items : List Node) :
    node.value ≠ .list items := by
  intro shape
  rw [Node.expr?, shape] at reads
  cases reads

theorem Node.not_map_of_expr? (reads : node.expr?.isSome = true) (fields : Fields Node) :
    node.value ≠ .map fields := by
  intro shape
  rw [Node.expr?, shape] at reads
  cases reads

/-- The value may be set at the path in a tame template. Below a directive key it must be still. -/
structure FitsAt (path : List String) (value : Node) : Prop where
  field : ∀ last ∈ path.getLast?, FieldTame true (last, value)
  still : directiveKey ∈ path.dropLast → value.Still ∧ ∀ last ∈ path.getLast?, IsPlainKey last

theorem FitsAt.tail {segment next : String} {rest : List String}
    (fits : FitsAt (segment :: next :: rest) value) : FitsAt (next :: rest) value where
  field last member := fits.field last (by rwa [List.getLast?_cons_cons])
  still below := by
    obtain ⟨still, plain⟩ := fits.still (List.mem_cons_of_mem _ below)
    exact ⟨still, fun last member => plain last (by rwa [List.getLast?_cons_cons])⟩

theorem Node.Tame.insertAt? {path : List String} (tame : root.Tame true) (fits : FitsAt path value)
    (made : root.insertAt? path value = some tree) : tree.Tame true := by
  induction path generalizing root tree with
  | nil => cases made
  | cons segment rest ih =>
    cases rest with
    | nil =>
      obtain ⟨-, rfl⟩ := Node.insertAt?_singleton_iff.mp made
      have field := fits.field segment rfl
      refine tame.set field.tame fun key same => ?_
      cases same
      exact field
    | cons next rest =>
      obtain ⟨child, after, known, below, rfl⟩ := Node.insertAt?_cons_iff.mp made
      have later := ih (inherited_of_tame.get? tame known) fits.tail below
      refine tame.set later fun key here => ?_
      rw [here] at known
      obtain ⟨fields, shape, member⟩ := Node.mem_of_get? known
      have same : segment = key := by
        rw [Node.placeOf_of_isMap (Node.isMap_iff.mpr ⟨fields, shape⟩)] at here
        cases here
        rfl
      have before : FieldTame true (key, child) := by
        have inside := tame.value
        rw [shape] at inside
        exact inside.fields _ member
      refine ⟨before.bare, later, fun directive => ?_⟩
      -- No field is set in a directive, so what is below its key is still.
      rcases before.2.2 directive with reads | still
      · rw [Node.insertAt?_leaf (Node.not_list_of_expr? reads) (Node.not_map_of_expr? reads)] at below
        cases below
      · have path : directiveKey ∈ (segment :: next :: rest).dropLast := by
          rw [List.dropLast_cons_cons, same, show key = directiveKey from directive]
          exact List.mem_cons_self
        obtain ⟨quiet, plain⟩ := fits.still path
        refine .inr (still.insertAt? quiet (fun last member => ⟨?_, ?_⟩) below)
        · exact (fits.tail.field last member).bare
        · exact plain last (by rwa [List.getLast?_cons_cons])

variable {defaultKey : String} {template stub : Node} {stubs : List Node}

/-- A place below a directive key of a tame stub is still, unless it is the directive. -/
theorem Node.Tame.insertAbsent {path : List String} (tame : template.Tame true)
    (given : stub.Tame true) (quiet : directiveKey ∈ path → stub.expr?.isSome = true ∨ stub.Still) :
    (insertAbsent defaultKey template path stub).Tame true := by
  induction stub using Node.treeInduction generalizing template path with
  | map fields annotations source ih =>
    have inside := given.value.fields
    have plain : directiveKey ∈ path → ∀ field ∈ fields, IsPlainKey field.1 ∧ field.2.Still :=
      fun below => (Node.still_map_iff.mp ((quiet below).resolve_left (by simp [Node.expr?]))).2
    rw [Cascade.insertAbsent]
    clear given quiet
    -- The template changes from field to field, and each field is looked up in what it has become.
    induction fields generalizing template with
    | nil =>
      rw [insertAbsentFields]
      exact tame
    | cons field rest others =>
      obtain ⟨key, child⟩ := field
      obtain ⟨first, later⟩ := List.forall_mem_cons.mp inside
      rw [insertAbsentFields]
      refine others (fun field member => ih field (List.mem_cons_of_mem _ member)) ?_ later
        fun below field member => plain below field (List.mem_cons_of_mem _ member)
      split
      · refine ih (key, child) List.mem_cons_self tame first.tame fun member => ?_
        rcases List.mem_append.mp member with below | last
        · exact .inr (plain below _ List.mem_cons_self).2
        · exact first.2.2 (List.mem_singleton.mp last).symm
      · split
        · cases inserted : template.insertAt? (path ++ [key]) child with
          | none => exact tame
          | some result =>
            refine tame.insertAt? ⟨fun last member => ?_, fun below => ?_⟩ inserted
            · rw [List.getLast?_concat] at member
              cases member
              exact first
            · rw [List.dropLast_concat] at below
              obtain ⟨plain, still⟩ := plain below _ List.mem_cons_self
              refine ⟨still, fun last member => ?_⟩
              rw [List.getLast?_concat] at member
              cases member
              exact plain
        · exact tame
  | list items annotations source ih =>
    rw [insertAbsent_of_not_map (by simp)]
    exact tame
  | leaf value annotations source notList notMap =>
    rw [insertAbsent_of_not_map notMap]
    exact tame

/-- The fields that tame stubs add keep a template tame. -/
theorem Node.Tame.injected (tame : template.Tame true) (given : ∀ stub ∈ stubs, stub.Tame true) :
    (injected defaultKey template stubs).Tame true := by
  rw [Cascade.injected]
  exact List.foldlRecOn stubs _ tame fun tree known stub member =>
    known.insertAbsent (given stub member) (fun below => by cases below)

end

/-! ### Steps -/

namespace Engine

section

variable (engine : Engine) (steps : Nat)

/-- The levels below a place at a depth, with a number of steps to spare. -/
def belowWithin (depth : Nat) : Deeper := level engine steps (engine.maxDepth - depth)

/-- The prepared stubs, with a number of steps to spare. -/
def preparedWithin (stubs : List Node) : Flow Prepared := do
  let base ← ExceptT.lift Run.newDocument
  prepare engine (engine.belowWithin steps 0) base stubs none 0 engine.keepUnresolved

/-- The outcome of a template with prepared stubs, with a number of steps to spare. -/
def applyWithin (template : Node) (prepared : Prepared) (state : Option Node) : Flow Outcome := do
  let tree ← (do
    let id ← ExceptT.lift Run.newDocument
    settled engine (engine.belowWithin steps 0)
      { id, stubs := prepared.stubs, state, overridable := true }
      (injected engine.defaultKey template prepared.stubs) : Flow Node)
  ExceptT.mk (pure (engine.outcomeOfTree tree prepared.unresolved))

/-- The outcome of a template with stubs, with a number of steps to spare. -/
def cascadeWithin (template : Node) (stubs : List Node) (state : Option Node) : Flow Outcome := do
  engine.applyWithin steps template (← engine.preparedWithin steps stubs) state

end

variable {engine : Engine} {template : Node} {stubs : List Node} {state : Option Node}

/-- An engine has its spare steps. -/
theorem cascade_eq_cascadeWithin :
    engine.cascade template stubs state = engine.cascadeWithin spareSteps template stubs state := rfl

/-- A call or a nested document leads one level deeper, or it fails if there is none. -/
theorem belowWithin_eq (steps depth : Nat) : engine.belowWithin steps depth =
    if depth < engine.maxDepth then
      { invoke := invokeLambda engine (engine.belowWithin steps (depth + 1))
        flowNested := flowNested engine (engine.belowWithin steps (depth + 1))
        fuel := steps }
    else
      { invoke := fun _ _ _ => Eval.fail .maxDepthExceeded
        flowNested := fun _ _ _ _ => Eval.fail .maxDepthExceeded
        fuel := steps } := by
  unfold belowWithin
  split
  · next within =>
    have levels : engine.maxDepth - depth = engine.maxDepth - (depth + 1) + 1 := by omega
    rw [levels, level]
  · next spent =>
    rw [Nat.sub_eq_zero_of_le (Nat.le_of_not_lt spent), level]

theorem newDocument_halts : Run.Halts (fun _ => Run.newDocument) fun _ => True :=
  fun world => ⟨⟨world.documents, []⟩, { world with documents := world.documents + 1 }, trivial,
    fun _ => .inr rfl, 0, fun _ _ => rfl⟩

section

variable (functions : engine.functions = Standard.functions)
  (controls : engine.controls = Control.standard)

include functions controls

theorem preparedWithin_halts (given : ∀ stub ∈ stubs, stub.Tame true) :
    Flow.Halts (fun steps => engine.preparedWithin steps stubs)
      (Prepared.Tame engine.keepUnresolved) :=
  (Flow.Halts.lift newDocument_halts).bind fun _ _ =>
    prepareFrom_halts functions controls (level_halts functions controls _) (by simp) given

theorem applyWithin_halts {prepared : Prepared} (tame : template.Tame true)
    (given : ∀ stub ∈ prepared.stubs, stub.Tame true) (known : ∀ tree ∈ state, tree.Still) :
    Flow.Halts (fun steps => engine.applyWithin steps template prepared state) fun _ => True := by
  unfold applyWithin
  refine Flow.Halts.bind (P := fun _ => True) ?_ fun tree _ => Run.Halts.pure fun _ _ => trivial
  refine (Flow.Halts.lift newDocument_halts).bind fun id _ => ?_
  have shared : Setting.Tame { id, stubs := prepared.stubs, state, overridable := true } :=
    ⟨given, known, by simp, by simp⟩
  refine Run.Halts.mono (settled_halts functions controls (level_halts functions controls _) shared
    (tame.injected given)) fun _ _ _ _ => trivial

theorem cascadeWithin_halts (tame : template.Tame true) (given : ∀ stub ∈ stubs, stub.Tame true)
    (known : ∀ tree ∈ state, tree.Still) :
    Flow.Halts (fun steps => engine.cascadeWithin steps template stubs state) fun _ => True :=
  (preparedWithin_halts functions controls given).bind fun _ prepared =>
    applyWithin_halts functions controls tame (fun stub member => (prepared stub member).1) known

end

/-- What is tame comes to an end at a depth: evaluations, calls, nested documents, passes over a
node, and passes until a document settles. -/
structure TerminatesAt (engine : Engine) (depth : Nat) : Prop where
  evaluate : ∀ e binding, e.Tame → binding.Tame →
    Run.Terminates fun steps => (evaluate engine (engine.belowWithin steps depth) e binding).run
  invoke : ∀ l args caller, l.Tame → (∀ argument ∈ args, argument.Has (Node.Tame true)) →
    caller.Tame →
    Run.Terminates fun steps => ((engine.belowWithin steps depth).invoke l args caller).run
  flowNested : ∀ node binding names stubs, node.Tame true → binding.Tame →
    (∀ layer ∈ names, ∀ field ∈ layer, field.2.Tame true) →
    (∀ trees ∈ stubs, ∀ stub ∈ trees, stub.Tame true) →
    Run.Terminates fun steps =>
      ((engine.belowWithin steps depth).flowNested node binding names stubs).run
  flowNode : ∀ node binding overridable, node.Tame true → binding.Tame →
    Run.Terminates fun steps =>
      flowNode engine (engine.belowWithin steps depth) steps node binding overridable
  settle : ∀ s root, s.Tame → root.Tame true →
    Run.Terminates fun steps => settle engine (engine.belowWithin steps depth) s root

theorem terminatesAt (functions : engine.functions = Standard.functions)
    (controls : engine.controls = Control.standard) (depth : Nat) : engine.TerminatesAt depth :=
  have nested : DeeperHalts fun steps => engine.belowWithin steps depth :=
    level_halts functions controls _
  { evaluate := fun _ _ tame place => (tame.halts functions nested _ place).terminates
    invoke := fun l args caller lambda arguments place =>
      (nested.invoke l args caller lambda arguments place).terminates
    flowNested := fun node binding names stubs tame place named trees =>
      (nested.flowNested node binding names stubs tame place named trees).terminates
    flowNode := fun node _ _ tame place =>
      (flowNode_halts functions controls nested node unbounded_id tame place).terminates
    settle := fun _ _ shared tame =>
      (settle_halts functions controls nested shared tame).terminates }

/-- Flows of tame documents come to an end, whatever the limits of the engine. Calls and nested
documents lead one level deeper, and at the greatest depth they fail. -/
theorem flows_terminate (functions : engine.functions = Standard.functions)
    (controls : engine.controls = Control.standard) (tame : template.Tame true)
    (given : ∀ stub ∈ stubs, stub.Tame true) (known : ∀ tree ∈ state, tree.Still) :
    Run.Terminates (fun steps => (engine.preparedWithin steps stubs).run) ∧
      Run.Terminates (fun steps => (engine.applyWithin steps template { stubs } state).run) ∧
      Run.Terminates (fun steps => (engine.cascadeWithin steps template stubs state).run) ∧
      engine.cascade template stubs state = engine.cascadeWithin spareSteps template stubs state ∧
      (∀ depth, engine.TerminatesAt depth) ∧
      (∀ steps depth, engine.belowWithin steps depth =
        if depth < engine.maxDepth then
          { invoke := invokeLambda engine (engine.belowWithin steps (depth + 1))
            flowNested := flowNested engine (engine.belowWithin steps (depth + 1))
            fuel := steps }
        else
          { invoke := fun _ _ _ => Eval.fail .maxDepthExceeded
            flowNested := fun _ _ _ _ => Eval.fail .maxDepthExceeded
            fuel := steps }) ∧
      Failure.maxDepthExceeded.message = "maximum recursion depth exceeded" :=
  ⟨(preparedWithin_halts functions controls given).terminates,
    (applyWithin_halts functions controls tame given known).terminates,
    (cascadeWithin_halts functions controls tame given known).terminates,
    cascade_eq_cascadeWithin, terminatesAt functions controls, belowWithin_eq, rfl⟩

end Engine

section

variable {key text source : String} {child : Node} {e : Expr} {fields : Fields Node}

theorem Node.tame_plainMap (sorted : fields.Sorted)
    (inside : ∀ field ∈ fields, FieldTame true field) :
    (Node.plain (.map fields) source).Tame true :=
  Node.tame_plain.mpr (Value.tame_map.mpr ⟨sorted, inside⟩)

/-- The text of a tame expression is a tame node. -/
theorem Node.tame_of_classify (reads : Embedded.classify text = .expression e) (tame : e.Tame) :
    (Node.plain (.string text) source).Tame true :=
  Node.tame_plain.mpr (.inr ⟨rfl, e, reads, tame⟩)

theorem fieldTame_of_ne (bare : isBare key = true) (plain : key ≠ directiveKey)
    (tame : child.Tame true) : FieldTame true (key, child) :=
  ⟨bare, tame, fun same => absurd same plain⟩

theorem fieldTame_of_classify (reads : Embedded.classify text = .expression e) (tame : e.Tame) :
    FieldTame true (directiveKey, .plain (.string text) source) := by
  refine ⟨(by decide : isBare directiveKey = true), Node.tame_of_classify reads tame,
    fun _ => .inl ?_⟩
  simp [Node.expr?, Node.plain, reads]

end

/-- A lambda, a map that takes fields from stubs, a loop, and a template with its substitution. -/
def rowsTemplate : Node :=
  .plain (.map [
    ("f", .plain (.string "(( |x|-> x + 1 ))") "template"),
    ("m", .plain (.map [("<<", .plain (.string "(( merge ))") "template")]) "template"),
    ("rows", .plain (.map [
      ("<<do", .plain (.string "(( f(x) ))") "template"),
      ("<<for", .plain (.map [("x", .plain (.list [.plain (.int 1) "template"]) "template")])
        "template")]) "template"),
    ("t", .plain (.map [
      ("<<", .plain (.string "(( &template ))") "template"),
      ("v", .plain (.string "(( f(1) ))") "template")]) "template"),
    ("u", .plain (.string "(( *t ))") "template")]) "template"

/-- A stub with a field that is computed. -/
def rowsStub : Node :=
  .plain (.map [("m", .plain (.map [("k", .plain (.string "(( 1 + 2 ))") "stub")]) "stub")]) "stub"

/-- A state document. -/
def rowsState : Node := .plain (.map [("c", .plain (.int 7) "state")]) "state"

theorem tame_rowsTemplate : rowsTemplate.Tame true := by
  have calls {argument : Expr} (tame : argument.Tame) :
      (Expr.call (.reference ⟨none, false, ["f"]⟩) [.positional argument]).Tame := by
    refine ⟨?_, trivial, tame, trivial⟩
    rintro ⟨r, ⟨⟩, named⟩
    exact absurd named (by decide)
  have readF : Embedded.classify "(( |x|-> x + 1 ))" = .expression (.lambda ⟨[⟨"x", none, false⟩],
      .arithmetic .add (.reference ⟨none, false, ["x"]⟩) (.int 1)⟩) := by cbv
  have readM : Embedded.classify "(( merge ))" =
      .expression (.merge ⟨none, false, false, none⟩) := by cbv
  have readRow : Embedded.classify "(( f(x) ))" = .expression (.call
      (.reference ⟨none, false, ["f"]⟩) [.positional (.reference ⟨none, false, ["x"]⟩)]) := by cbv
  have readT : Embedded.classify "(( &template ))" =
      .expression (.marked [.flag .template] none) := by cbv
  have readV : Embedded.classify "(( f(1) ))" = .expression (.call
      (.reference ⟨none, false, ["f"]⟩) [.positional (.int 1)]) := by cbv
  have readU : Embedded.classify "(( *t ))" =
      .expression (.substitution (.reference ⟨none, false, ["t"]⟩)) := by cbv
  have f : FieldTame true ("f", .plain (.string "(( |x|-> x + 1 ))") "template") :=
    fieldTame_of_ne (by decide) (by decide) (Node.tame_of_classify readF
      ⟨trivial, ⟨trivial, trivial⟩, trivial, trivial, trivial⟩)
  have m : FieldTame true ("m", .plain (.map [("<<", .plain (.string "(( merge ))") "template")])
      "template") :=
    fieldTame_of_ne (by decide) (by decide) (Node.tame_plainMap (by decide)
      (List.forall_mem_singleton.mpr (fieldTame_of_classify readM trivial)))
  have body : FieldTame true ("<<do", .plain (.string "(( f(x) ))") "template") :=
    fieldTame_of_ne (by decide) (by decide) (Node.tame_of_classify readRow (calls trivial))
  have sequence : FieldTame true ("x", .plain (.list [.plain (.int 1) "template"]) "template") :=
    fieldTame_of_ne (by decide) (by decide) (Node.tame_plain.mpr (Value.tame_list.mpr
      (List.forall_mem_singleton.mpr trivial)))
  have loop : FieldTame true ("<<for", .plain (.map [("x",
      .plain (.list [.plain (.int 1) "template"]) "template")]) "template") :=
    fieldTame_of_ne (by decide) (by decide) (Node.tame_plainMap (by decide)
      (List.forall_mem_singleton.mpr sequence))
  have t : FieldTame true ("t", .plain (.map [
      ("<<", .plain (.string "(( &template ))") "template"),
      ("v", .plain (.string "(( f(1) ))") "template")]) "template") :=
    fieldTame_of_ne (by decide) (by decide) (Node.tame_plainMap (by decide) (List.forall_mem_cons.mpr
      ⟨fieldTame_of_classify readT ⟨trivial, trivial⟩, List.forall_mem_singleton.mpr
        (fieldTame_of_ne (by decide) (by decide) (Node.tame_of_classify readV (calls trivial)))⟩))
  have u : FieldTame true ("u", .plain (.string "(( *t ))") "template") :=
    fieldTame_of_ne (by decide) (by decide) (Node.tame_of_classify readU ⟨trivial, trivial⟩)
  refine Node.tame_plainMap (by decide) ?_
  simp only [List.forall_mem_cons]
  exact ⟨f, m, fieldTame_of_ne (by decide) (by decide) (Node.tame_plainMap (by decide)
    (List.forall_mem_cons.mpr ⟨body, List.forall_mem_singleton.mpr loop⟩)), t, u, by simp⟩

theorem tame_rowsStub : rowsStub.Tame true := by
  have readK : Embedded.classify "(( 1 + 2 ))" =
      .expression (.arithmetic .add (.int 1) (.int 2)) := by cbv
  have k : FieldTame true ("k", .plain (.string "(( 1 + 2 ))") "stub") :=
    fieldTame_of_ne (by decide) (by decide)
      (Node.tame_of_classify readK ⟨trivial, trivial, trivial⟩)
  exact Node.tame_plainMap (by decide) (List.forall_mem_singleton.mpr
    (fieldTame_of_ne (by decide) (by decide)
      (Node.tame_plainMap (by decide) (List.forall_mem_singleton.mpr k))))

theorem still_rowsState : rowsState.Still :=
  Node.still_map_iff.mpr ⟨Node.tame_plainMap (by decide) (List.forall_mem_singleton.mpr
    (fieldTame_of_ne (by decide) (by decide) trivial)),
    List.forall_mem_singleton.mpr ⟨by decide, trivial, rfl⟩⟩

/-- The field of the stub is computed, and more steps change nothing. -/
theorem Engine.flows_terminate_rowsTemplate : ∃ outcome world' enough,
    ((outcome.document.field? "m").bind (·.field? "k")).bind (·.value.asInt?) = some 3 ∧
      (standard.cascade rowsTemplate [rowsStub] (some rowsState)).run {} =
        some (.ok outcome, world') ∧
      ∀ steps, enough ≤ steps →
        (standard.cascadeWithin steps rowsTemplate [rowsStub] (some rowsState)).run {} =
          some (.ok outcome, world') := by
  have known : ∀ tree ∈ some rowsState, tree.Still := by
    rintro tree ⟨⟩
    exact still_rowsState
  have functions : standard.functions = Standard.functions := rfl
  obtain ⟨-, -, terminates, same, -⟩ := flows_terminate functions rfl tame_rowsTemplate
    (List.forall_mem_singleton.mpr tame_rowsStub) known
  have ran : (((standard.cascade rowsTemplate [rowsStub] (some rowsState)).run {}).any
      fun answer => answer.1.toOption.any fun outcome =>
        ((outcome.document.field? "m").bind (·.field? "k")).bind (·.value.asInt?) == some 3) =
          true := by
    decide +kernel
  obtain ⟨answer, sole, enough, answers⟩ := terminates {}
  dsimp only at sole
  rw [same] at ran ⊢
  -- The steps that an engine has give an answer here, so it is the one that enough steps give.
  rcases sole spareSteps with none | yields
  · rw [none] at ran
    cases ran
  · rw [yields] at ran ⊢
    obtain ⟨outcome, world'⟩ := answer
    cases outcome with
    | error e => cases ran
    | ok outcome =>
      have number : (((outcome.document.field? "m").bind (·.field? "k")).bind
        (·.value.asInt?) == some 3) = true := ran
      exact ⟨outcome, world', enough, beq_iff_eq.mp number, rfl, answers⟩

/-! ### A document without an end -/

/-- Conditionals in one another, and in the innermost one a directive that is put together from a
bracket and the rest of its text. -/
def endlessExpr : Nat → Expr
  | 0 => .map [(directiveKey, .concatenation (.string "(") (.reference ⟨none, true, ["s"]⟩))]
  | depth + 1 => .map [("<<if", .bool true), ("<<then", endlessExpr depth)]

/-- The directive: a map with the conditionals below a field. -/
def endlessDirective (depth : Nat) : Expr := .map [("a", endlessExpr depth)]

/-- The text of the directive. -/
def endlessText (depth : Nat) : String := (endlessDirective depth).embed

/-- The text without the first bracket, which is no expression. -/
def endlessRest (depth : Nat) : String := "( " ++ (endlessDirective depth).render ++ " ))"

/-- The rest of the text and a map with the directive. -/
def endlessFields (depth : Nat) : Fields Node :=
  [("s", .plain (.string (endlessRest depth)) "template"),
    ("x", .plain (.map [(directiveKey, .plain (.string (endlessText depth)) "template")]) "template")]

/-- A document that puts its directive into the map below it. -/
def endlessTemplate (depth : Nat) : Node := .plain (.map (endlessFields depth)) "template"

/-- The directive is in the tree, under conditionals. -/
inductive IsEndless (depth : Nat) : Node → Prop
  | directive {written : Node} {annotations : Annotations} {source : String} :
    written.value = .string (endlessText depth) →
      IsEndless depth ⟨.map [(directiveKey, written)], annotations, source⟩
  | conditional {child : Node} {annotations : Annotations} {origin source : String} :
    IsEndless depth child →
      IsEndless depth ⟨.map [("<<if", .plain (.bool true) origin), ("<<then", child)], annotations,
        source⟩

/-- A place in the document, which has no stubs, no state and no surroundings. -/
structure Binding.InEndless (depth : Nat) (b : Binding) : Prop where
  root : b.document.root = endlessTemplate depth
  stubs : b.document.stubs = []
  state : b.document.state = none
  outer : b.scope.outer = none

namespace Binding.InEndless

variable {depth : Nat} {b : Binding} (place : b.InEndless depth)

include place

theorem child (segment : String) : (b.child segment).InEndless depth :=
  ⟨place.root, place.stubs, place.state, place.outer⟩

theorem directive : b.directive.InEndless depth :=
  ⟨place.root, place.stubs, place.state, place.outer⟩

theorem inside (a : Annotations) : (b.inside a).InEndless depth := by
  rw [Binding.inside]
  split <;> exact ⟨place.root, place.stubs, place.state, place.outer⟩

end Binding.InEndless

theorem Run.bind_exhausted {α β : Type} {r : Run α} {next : α → Run β}
    (later : ∀ a, next a = Run.exhausted) : r >>= next = Run.exhausted := by
  funext world
  change (r world).bind _ = none
  cases r world with
  | none => rfl
  | some result => exact congrFun (later result.1) result.2

section

variable {engine : Engine} {deeper : Deeper} {depth : Nat} {binding : Binding}

theorem evaluate_map_singleton {key : String} {e : Expr} {value : Value}
    (yields : evaluate engine deeper e binding = pure (.ofValue value)) :
    evaluate engine deeper (.map [(key, e)]) binding =
      pure (.ofValue (.map [(key, (Resolved.ofValue value).toNode binding.source)])) := by
  rw [evaluate, evaluateEntries, yields]
  rfl

theorem evaluate_conditional {e : Expr} {value : Value}
    (yields : evaluate engine deeper e binding = pure (.ofValue value)) :
    evaluate engine deeper (.map [("<<if", .bool true), ("<<then", e)]) binding =
      pure (.ofValue (.map [("<<if", .plain (.bool true) binding.source),
        ("<<then", (Resolved.ofValue value).toNode binding.source)])) := by
  have sorted (a b : Node) : Fields.ofList [("<<if", a), ("<<then", b)] =
      [("<<if", a), ("<<then", b)] := by
    rw [Fields.ofList, Fields.override, List.foldl_cons, List.foldl_cons, List.foldl_nil,
      Fields.insert, Fields.insert, if_neg (by decide : ¬"<<then" < "<<if"),
      if_neg (by decide : "<<then" ≠ "<<if"), Fields.insert]
  rw [evaluate, evaluateEntries, evaluateEntries, evaluateEntries, yields, evaluate, ← sorted]
  rfl

/-- A conditional that is true is flowed as its branch, at the same place. -/
theorem flowNode_conditional (controls : engine.controls = Control.standard) {fuel : Nat}
    {child : Node} {annotations : Annotations} {origin source : String} {overridable : Bool}
    (kept : ∀ node, overridable = true → mapOverride? engine.defaultKey node binding = none) :
    flowNode engine deeper (fuel + 1)
        ⟨.map [("<<if", .plain (.bool true) origin), ("<<then", child)], annotations, source⟩
        binding overridable =
      flowNode engine deeper fuel child binding overridable := by
  have whole (node : Node) :
      (if overridable then mapOverride? engine.defaultKey node binding else none) = none := by
    split
    · next asked => exact kept node asked
    · rfl
  have names : controlNames [("<<if", .plain (.bool true) origin), ("<<then", child)] =
      ["if", "then"] :=
    (by decide : (["<<if", "<<then"].filterMap fun key =>
      (controlSuffix? key).filter (· ≠ "")) = ["if", "then"])
  rw [flowNode]
  dsimp only
  rw [flowMap, whole, runControl, names, controls]
  -- Without a step to spare the truth has no answer, and neither has the branch.
  cases fuel <;> rfl

/-- Fields of which one has no answer have none. -/
theorem flowFields_exhausted {below : FlowBelow} {fields : Fields Node} {key : String} {child : Node}
    {overridable : Bool} (member : (key, child) ∈ fields) (plain : key ≠ directiveKey)
    (spent : below child (binding.child key) overridable = Run.exhausted) :
    flowFields below binding overridable fields = Run.exhausted := by
  induction fields with
  | nil => cases member
  | cons field rest ih =>
    obtain ⟨name, other⟩ := field
    rw [flowFields]
    rcases List.mem_cons.mp member with here | later
    · cases here
      rw [if_neg plain, spent]
      rfl
    · rw [ih later]
      split <;> exact Run.bind_exhausted fun _ => rfl

variable (controls : engine.controls = Control.standard)
  (reads : Embedded.classify (endlessText depth) = .expression (endlessDirective depth))
  (read : Embedded.isUnread (endlessRest depth) = false) (place : binding.InEndless depth)

include read place

/-- The rest of the text is found in the document. -/
theorem resolve_endlessRest : (Reference.mk none true ["s"]).resolve binding.scope engine.defaultKey
    false = .ok (.ofValue (.string (endlessRest depth))) := by
  have outermost : binding.scope.rootScope = binding.scope := by
    obtain ⟨⟨document, names, anchor, outer⟩, path, stubPath, keys, depth⟩ := binding
    cases place.outer
    rfl
  have found : (Reference.mk none true ["s"]).find binding.scope engine.defaultKey =
      .ok (.plain (.string (endlessRest depth)) "template") := by
    change walkPath _ binding.scope.rootScope.document.root [] ["s"] = _
    rw [outermost, show binding.scope.document.root = _ from place.root]
    rfl
  have resolved : (Node.plain (.string (endlessRest depth)) "template").isResolved = true :=
    Node.isResolved_iff.mpr ⟨rfl, by simp [Node.plain, Node.valueResolved, read]⟩
  exact resolve_eq_ok_iff.mpr ⟨_, found, resolved, rfl⟩

/-- The map literals yield maps with the directive. -/
theorem evaluate_endlessExpr (n : Nat) : ∃ value,
    (∀ annotations source, IsEndless depth ⟨value, annotations, source⟩) ∧
      evaluate engine deeper (endlessExpr n) binding = pure (.ofValue value) := by
  induction n with
  | zero =>
    have text : evaluate engine deeper
        (.concatenation (.string "(") (.reference ⟨none, true, ["s"]⟩)) binding =
          pure (.ofValue (.string (endlessText depth))) := by
      have joined : "(" ++ endlessRest depth = endlessText depth := by
        rw [endlessRest, ← String.append_assoc, ← String.append_assoc]
        rfl
      rw [evaluate, evaluate, evaluate, resolve_endlessRest read place, ← joined]
      generalize endlessRest depth = text
      rfl
    exact ⟨_, fun _ _ => .directive rfl, evaluate_map_singleton text⟩
  | succ n ih =>
    obtain ⟨value, endless, yields⟩ := ih
    exact ⟨_, fun _ _ => .conditional (endless _ _), evaluate_conditional yields⟩

/-- The value takes the place of the directive, and the directive is in it again. -/
theorem flowDirective_endless {node written : Node} : ∃ child annotations, IsEndless depth child ∧
    flowDirective engine deeper node [(directiveKey, written)]
      (some (written, endlessDirective depth)) binding =
        pure (.fields [("a", child)] annotations) := by
  obtain ⟨value, inner, yields⟩ : ∃ value,
      (∀ annotations source, IsEndless depth ⟨value, annotations, source⟩) ∧
        evaluate engine deeper (endlessExpr depth) binding.directive = pure (.ofValue value) :=
    evaluate_endlessExpr read place.directive depth
  refine ⟨(Resolved.ofValue value).toNode binding.directive.source,
    Info.annotateContainer {} node.annotations.clearIssue, inner _ _, ?_⟩
  rw [flowDirective, outcomeOf, endlessDirective, evaluate_map_singleton yields, ExceptT.run_pure,
    pure_bind]
  rfl

include reads controls

/-- No number of steps suffices for a pass over the directive. -/
theorem flowNode_endless {fuel : Nat} {node : Node} {overridable : Bool}
    (endless : IsEndless depth node) :
    flowNode engine deeper fuel node binding overridable = Run.exhausted := by
  -- Every step leads to a node that is endless again: to the branch of a conditional at the same
  -- place, or to the field that the directive leaves.
  induction fuel generalizing node binding overridable with
  | zero => rfl
  | succ fuel ih =>
    have kept (node : Node) (_ : overridable = true) :
        mapOverride? engine.defaultKey node binding = none :=
      mapOverride?_of_noStubs place.stubs
    cases endless with
    | conditional inner => rw [flowNode_conditional controls kept, ih place inner]
    | @directive written _ _ shape =>
      have waits : written.expr? = some (endlessDirective depth) := by
        rw [Node.expr?, shape]
        simp only [reads]
      have found : ((Fields.find? [(directiveKey, written)] directiveKey).bind fun written =>
          written.expr?.map fun e => (written, e)) = some (written, endlessDirective depth) := by
        simp [Fields.find?, waits]
      obtain ⟨child, after, again, spliced⟩ := flowDirective_endless read place
      rw [flowNode]
      dsimp only
      rw [flowMap_of_kept (kept _) place.state found (by rintro _ _ ⟨⟩; rfl)
        (List.length_eq_zero_iff.mp (controlCount_eq_zero_iff.mpr
          (List.forall_mem_singleton.mpr (by decide : IsPlainKey directiveKey)))), spliced, pure_bind]
      dsimp only
      rw [flowFields_exhausted List.mem_cons_self (by decide)
        (ih ((place.inside _).child "a") again)]
      rfl

/-- So does no number of steps for a pass over the document. -/
theorem flowNode_endlessTemplate {fuel : Nat} {overridable : Bool} :
    flowNode engine deeper fuel (endlessTemplate depth) binding overridable = Run.exhausted := by
  have noControl : controlNames (endlessFields depth) = [] :=
    List.length_eq_zero_iff.mp (controlCount_eq_zero_iff.mpr
      (List.forall_mem_cons.mpr ⟨(by decide : IsPlainKey "s"),
        List.forall_mem_singleton.mpr (by decide : IsPlainKey "x")⟩))
  have noDirective : ((Fields.find? (endlessFields depth) directiveKey).bind fun written =>
      written.expr?.map fun e => (written, e)) = none := rfl
  have endless : IsEndless depth (.plain (.map [(directiveKey,
    .plain (.string (endlessText depth)) "template")]) "template") := .directive rfl
  have member : ("x", _) ∈ endlessFields depth := List.mem_cons_of_mem _ List.mem_cons_self
  cases fuel with
  | zero => rfl
  | succ fuel =>
    rw [flowNode, endlessTemplate]
    dsimp only [Node.plain]
    rw [flowMap_of_kept (fun _ => mapOverride?_of_noStubs place.stubs) place.state noDirective
      (by simp) noControl, flowDirective, pure_bind]
    dsimp only
    rw [flowFields_exhausted member (by decide)
      (flowNode_endless controls reads read ((place.inside _).child "x") endless)]
    rfl

omit place

/-- The first pass never ends. -/
theorem settle_endless (passes : 0 < engine.maxPasses) (id : DocumentId) :
    settle engine deeper { id, overridable := true } (endlessTemplate depth) = Run.exhausted := by
  obtain ⟨rest, enough⟩ := Nat.exists_eq_add_of_lt passes
  rw [Nat.zero_add] at enough
  rw [settle, Setting.seeded, if_pos rfl, seedOverrides_of_noStubs rfl, enough, settleWithin, pass,
    flowNode_endlessTemplate controls reads read ⟨rfl, rfl, rfl, rfl⟩]
  rfl

/-- No number of steps suffices for the cascade. -/
theorem Engine.cascadeWithin_endless (passes : 0 < engine.maxPasses) (steps : Nat) (world : World) :
    (engine.cascadeWithin steps (endlessTemplate depth) [] none).run world = none := by
  have settles (id : DocumentId) : (settled engine (engine.belowWithin steps 0)
      { id, overridable := true } (endlessTemplate depth)).run = Run.exhausted := by
    rw [settled, settle_endless controls reads read passes]
    rfl
  have applies : (engine.applyWithin steps (endlessTemplate depth) {} none).run = Run.exhausted := by
    have nothing : injected engine.defaultKey (endlessTemplate depth) [] = endlessTemplate depth :=
      rfl
    simp only [applyWithin, nothing, ExceptT.run_bind, ExceptT.run_lift, bind_map_left, settles]
    rw [Run.bind_exhausted fun _ => rfl]
    rfl
  exact congrFun applies { world with documents := world.documents + 1 }

end

set_option maxRecDepth 10000 in
theorem classify_endlessText :
    Embedded.classify (endlessText 3) = .expression (endlessDirective 3) := by
  have printed : endlessText 3 =
      "(( \x7b a = \x7b \"<<if\" = true, \"<<then\" = \x7b \"<<if\" = true, \"<<then\" = \x7b \"<<if\" = true, \"<<then\" = \x7b \"<<\" = \"(\" .s \x7d \x7d \x7d \x7d \x7d ))" := by
    decide +kernel
  rw [printed]
  cbv

/-- The first pass over this document never ends, however many steps are granted. -/
theorem Engine.not_terminates_endlessTemplate :
    ¬Run.Terminates fun steps => (standard.cascadeWithin steps (endlessTemplate 3) [] none).run := by
  intro terminates
  obtain ⟨answer, -, enough, answers⟩ := terminates {}
  have controls : standard.controls = Control.standard := rfl
  have nothing := cascadeWithin_endless controls classify_endlessText (by decide +kernel)
    (by decide) enough {}
  cases (answers enough (Nat.le_refl _)).symm.trans nothing

end Cascade
