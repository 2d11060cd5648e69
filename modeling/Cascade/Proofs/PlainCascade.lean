import Cascade.Proofs.Overlay

/-!
# Cascades of plain data

A cascade whose documents hold no expressions puts the stub values into the template and is done:
the first pass changes nothing, there is nothing to report, and nothing belongs to the state
document.

## Main statements

* `settle_of_still`: a seeded document that a pass returns unchanged is settled.
* `prepareFrom_of_plainData`: plain stubs are prepared as they are.
* `cascade_plainData`: the outcome of a cascade of plain data is the overlay.
-/

namespace Cascade

variable {engine : Engine} {deeper : Deeper}

/-! ### Documents that are settled from the start -/

/-- A seeded document that a pass returns unchanged is settled. -/
theorem settle_of_still {s : Setting} {root : Node} (passes : 1 ≤ engine.maxPasses)
    (still : pass engine deeper s (s.seeded engine root) = pure (s.seeded engine root))
    (same : (s.seeded engine root).same (s.seeded engine root) = true) :
    settle engine deeper s root = pure (some (s.seeded engine root)) := by
  obtain ⟨more, enough⟩ : ∃ more, engine.maxPasses = more + 1 :=
    ⟨engine.maxPasses - 1, by omega⟩
  rw [settle, enough, settleWithin, still, pure_bind, if_pos same]

/-- A pass returns a document of inert data unchanged if no stub overrides it. -/
theorem pass_of_inert {s : Setting} {root : Node} (inert : root.isInert = true)
    (calm : s.overridable = false) : pass engine deeper s root = pure root := by
  rw [pass, flowNode_inert inert (by omega) (.inl calm), pure_bind, Option.getD_some]

/-! ### Stubs -/

/-- A plain stub is settled as it is. -/
theorem settled_of_plainData {s : Setting} {stub : Node} (passes : 1 ≤ engine.maxPasses)
    (plain : stub.isPlainData = true) (calm : s.overridable = false) :
    settled engine deeper s stub = pure stub := by
  have inert := Node.isInert_of_isPlainData plain
  have kept : s.seeded engine stub = stub := by
    rw [Setting.seeded, calm, if_neg Bool.false_ne_true]
  have rest : settle engine deeper s stub = pure (some (s.seeded engine stub)) :=
    settle_of_still passes (by rw [kept]; exact pass_of_inert inert calm)
      (by rw [kept]; exact Node.same_of_data inert)
  rw [settled, rest, kept]
  rfl

theorem absorb_empty : Report.absorb {} {} = {} := by
  rw [Report.absorb, List.foldl_nil, Report.sorted, List.mergeSort_nil]

/-- Plain stubs are prepared as they are, and nothing in them is reported. -/
theorem prepareFrom_of_plainData {base : DocumentId} {outer : Option Scope} {depth : Nat}
    {keep : Bool} {stubs : List Node} (passes : 1 ≤ engine.maxPasses)
    (plain : ∀ stub ∈ stubs, stub.isPlainData = true) (number : Nat) :
    prepareFrom engine deeper base outer depth keep number stubs = pure ⟨stubs, {}⟩ := by
  induction stubs generalizing number with
  | nil => rw [prepareFrom]
  | cons stub rest ih =>
    have first := plain stub List.mem_cons_self
    have shown := Node.isShown_of_isInert (Node.isInert_of_isPlainData first)
    have later := ih (fun stub member => plain stub (List.mem_cons_of_mem _ member)) (number + 1)
    have settled : ∀ s : Setting, s.overridable = false →
        settled engine deeper s stub = pure stub := fun s => settled_of_plainData passes first
    rw [prepareFrom, later, pure_bind]
    simp only
    rw [settled _ rfl, pure_bind, collect_of_shown shown, absorb_empty, Node.strip?_of_shown shown]
    rfl

/-- A plain stub adds no fields to a template. -/
theorem insertAbsent_of_plainData {defaultKey : String} {template stub : Node}
    (plain : stub.isPlainData = true) (path : List String) :
    insertAbsent defaultKey template path stub = template := by
  induction stub using Node.treeInduction generalizing path with
  | list items annotations source ih => rw [insertAbsent]; simp
  | map fields annotations source ih =>
    simp only [Node.isPlainData, Node.isDataWith, Value.isDataWith, Bool.and_eq_true,
      fieldsAreData_iff] at plain ih
    rw [insertAbsent]
    induction fields with
    | nil => rw [insertAbsentFields]
    | cons field rest others =>
      obtain ⟨key, child⟩ := field
      have first := (plain.2 (key, child) List.mem_cons_self).2
      have later := others
        (fun field member => ih field (List.mem_cons_of_mem _ member))
        ⟨plain.1, fun field member => plain.2 field (List.mem_cons_of_mem _ member)⟩
      rw [insertAbsentFields]
      split
      · rw [ih (key, child) List.mem_cons_self first]
        exact later
      · obtain ⟨value, own, origin⟩ := child
        rw [Node.isDataWith, Bool.and_eq_true] at first
        obtain rfl := Annotations.eq_of_isPlain first.1
        exact later
  | leaf value annotations source notList notMap =>
    rw [insertAbsent]
    rintro fields _ _ shape
    cases shape
    exact notMap fields rfl

theorem injected_of_plainData {defaultKey : String} {template : Node} {stubs : List Node}
    (plain : ∀ stub ∈ stubs, stub.isPlainData = true) :
    injected defaultKey template stubs = template := by
  rw [injected]
  induction stubs with
  | nil => rw [List.foldl_nil]
  | cons stub rest ih =>
    rw [List.foldl_cons, insertAbsent_of_plainData (plain stub List.mem_cons_self)]
    exact ih fun stub member => plain stub (List.mem_cons_of_mem _ member)

/-! ### The template -/

/-- The stub values of the root of a document are its stubs. -/
theorem stubValues_rootBinding {s : Setting} {root : Node} {defaultKey : String} :
    (s.rootBinding root).stubValues defaultKey = s.stubs := by
  rw [Binding.stubValues]
  exact List.filterMap_some

theorem isAligned_rootBinding {s : Setting} {root : Node} : (s.rootBinding root).IsAligned := rfl

section

variable {s : Setting} {template : Node} (data : template.isPlainData = true)
  (plain : ∀ stub ∈ s.stubs, stub.isPlainData = true) (overridden : s.overridable = true)

include data plain

theorem isInert_seeded : (s.seeded engine template).isInert = true := by
  rw [Setting.seeded]
  split
  · exact isInert_seedOverrides data isAligned_rootBinding plain
  · exact Node.isInert_of_isPlainData data

include overridden

theorem bare_seeded :
    (s.seeded engine template).bare = overlay engine.defaultKey template s.stubs := by
  rw [Setting.seeded, if_pos overridden, bare_seedOverrides data isAligned_rootBinding plain,
    stubValues_rootBinding]

/-- The first pass over a seeded template of plain data changes nothing. -/
theorem pass_seeded :
    pass engine deeper s (s.seeded engine template) = pure (s.seeded engine template) := by
  have seeded : s.seeded engine template =
      seedOverrides engine.defaultKey template (s.rootBinding template) := by
    rw [Setting.seeded, if_pos overridden]
  have flowed : flowNode engine deeper
      ((s.seeded engine template).height + itemsHeight s.stubs + 1 + deeper.fuel)
      (s.seeded engine template) (s.rootBinding (s.seeded engine template)) true =
      pure (some (s.seeded engine template)) := by
    rw [seeded]
    exact flowNode_seedOverrides data (by omega) isAligned_rootBinding isAligned_rootBinding plain
      plain (by rw [stubValues_rootBinding, stubValues_rootBinding])
  rw [pass, overridden, flowed, pure_bind, Option.getD_some]

end

/-- Settled data that is the document as it stands yields itself, and neither a state document nor a
report. -/
theorem outcomeOfTree_of_shown {tree : Node} (shown : tree.isShown = true) :
    engine.outcomeOfTree tree {} =
      .ok { document := tree, state := none, unresolved := none } := by
  have nothing : ((Report.collect tree engine.defaultKey).absorb {}).isEmpty = true := by
    rw [collect_of_shown shown, absorb_empty]
    rfl
  rw [Engine.outcomeOfTree]
  simp only [nothing, finalDocument_of_shown shown, stateDocument,
    Node.extractState?_of_shown shown, Option.bind_none]
  rfl

/-! ### Cascades -/

/-- After a computation that yields a document, what follows goes on with it. -/
theorem Flow.bind_of_ok {α β : Type} {x : Flow α} {next : α → Flow β} {a : α} {world world' : World}
    (yields : x world = some (.ok a, world')) : (x >>= next) world = next a world' := by
  change ((x : World → Option (Except FlowError α × World)) world).bind _ = _
  rw [yields]
  rfl

/-- The setting in which a cascade flows its template. -/
def cascadeSetting (id : DocumentId) (stubs : List Node) (state : Option Node) : Setting :=
  { id, stubs, state, overridable := true }

/-- After a computation that fails, what follows does not count. -/
theorem Flow.bind_of_error {α β : Type} {x : Flow α} {next : α → Flow β} {e : FlowError}
    {world world' : World} (fails : x world = some (.error e, world')) :
    (x >>= next) world = some (.error e, world') := by
  change ((x : World → Option (Except FlowError α × World)) world).bind _ = _
  rw [fails]
  rfl

/-- The outcome of a template, by what it settles to. -/
def Engine.outcomeOfSettled (engine : Engine) : Option Node → Except FlowError Outcome
  | some tree => engine.outcomeOfTree tree {}
  | none => .error (.passLimit engine.maxPasses)

/-- With stubs that are prepared, the outcome is that of what the template settles to. -/
theorem applyPrepared_of_settle {template : Node} {stubs : List Node} {state settled : Option Node}
    {world : World}
    (settles : settle engine (engine.below 0) (cascadeSetting ⟨world.documents, []⟩ stubs state)
      (injected engine.defaultKey template stubs) = pure settled) :
    engine.applyPrepared template ⟨stubs, {}⟩ state world =
      some (engine.outcomeOfSettled settled, { world with documents := world.documents + 1 }) := by
  have flowed : engine.settledTree template stubs state world =
      Cascade.settled engine (engine.below 0) (cascadeSetting ⟨world.documents, []⟩ stubs state)
        (injected engine.defaultKey template stubs)
        { world with documents := world.documents + 1 } := rfl
  rw [Cascade.settled, settles] at flowed
  rw [Engine.applyPrepared]
  cases settled with
  | some tree => rw [Flow.bind_of_ok flowed]; rfl
  | none => exact Flow.bind_of_error flowed

/-- A cascade with plain stubs is the outcome of what its template settles to. -/
theorem cascade_of_settle {template : Node} {stubs : List Node} {state settled : Option Node}
    {world : World} (passes : 1 ≤ engine.maxPasses)
    (plain : ∀ stub ∈ stubs, stub.isPlainData = true)
    (settles : settle engine (engine.below 0)
      (cascadeSetting ⟨world.documents + 1, []⟩ stubs state) template = pure settled) :
    (engine.cascade template stubs state).run world =
      some (engine.outcomeOfSettled settled, { world with documents := world.documents + 2 }) := by
  have prepared : engine.prepared stubs world =
      some (.ok ⟨stubs, {}⟩, { world with documents := world.documents + 1 }) := by
    simp only [Engine.prepared, prepare, prepareFrom_of_plainData passes plain]
    rfl
  change engine.cascade template stubs state world = _
  rw [Engine.cascade, Flow.bind_of_ok prepared]
  refine applyPrepared_of_settle ?_
  rw [injected_of_plainData plain]
  exact settles

/-- A cascade of plain data succeeds with the overlay of the template with the stubs. The first pass
over the seeded template changes nothing, there is no state document, and nothing is unresolved. -/
theorem cascade_plainData (engine : Engine) (passes : 1 ≤ engine.maxPasses) (template : Node)
    (data : template.isPlainData = true) (stubs : List Node)
    (plain : ∀ stub ∈ stubs, stub.isPlainData = true) (state : Option Node) (world : World) :
    (∃ outcome world', (engine.cascade template stubs state).run world =
        some (.ok outcome, world') ∧
      outcome.document.bare = overlay engine.defaultKey template stubs ∧
      outcome.document.toJson = (overlay engine.defaultKey template stubs).toJson ∧
      outcome.state = none ∧ outcome.unresolved = none) ∧
    ∀ id, pass engine (engine.below 0) (cascadeSetting id stubs state)
        ((cascadeSetting id stubs state).seeded engine template) =
      pure ((cascadeSetting id stubs state).seeded engine template) := by
  refine ⟨?_, fun id => pass_seeded data plain rfl⟩
  let s := cascadeSetting ⟨world.documents + 1, []⟩ stubs state
  let tree := s.seeded engine template
  have inert : tree.isInert = true := isInert_seeded data plain
  have bare : tree.bare = overlay engine.defaultKey template stubs := bare_seeded data plain rfl
  have still : settle engine (engine.below 0) s template = pure (some tree) :=
    settle_of_still passes (pass_seeded data plain rfl) (Node.same_of_data inert)
  have applied : (engine.cascade template stubs state).run world =
      some (.ok ⟨tree, none, none⟩, { world with documents := world.documents + 2 }) := by
    rw [cascade_of_settle passes plain still, Engine.outcomeOfSettled,
      outcomeOfTree_of_shown (Node.isShown_of_isInert inert)]
  refine ⟨⟨tree, none, none⟩, _, applied, bare, ?_, rfl, rfl⟩
  rw [← bare, Node.toJson_bare]

/-- A template with a number, a map and a list in it. -/
def plainTemplate : Node :=
  .plain (.map [("count", .plain (.int 1) "t"),
    ("place", .plain (.map [("host", .plain (.string "a") "t"),
      ("ports", .plain (.list [.plain (.int 1) "t", .plain (.int 2) "t"]) "t")]) "t")]) "t"

/-- Two stubs, the first of which gives no host. -/
def plainStubs : List Node :=
  [.plain (.map [("count", .plain .nil "s"),
    ("place", .plain (.map [("ports", .plain (.list []) "s")]) "s")]) "s",
   .plain (.map [("count", .plain (.int 3) "r"),
    ("place", .plain (.map [("host", .plain (.string "b") "r"), ("user", .plain .nil "r")])
      "r")]) "r"]

theorem cascade_plainTemplate :
    plainTemplate.isPlainData = true ∧ (∀ stub ∈ plainStubs, stub.isPlainData = true) ∧
    ∃ outcome world', (Engine.standard.cascade plainTemplate plainStubs none).run {} =
        some (.ok outcome, world') ∧
      outcome.document.bare = .plain (.map [("count", .plain .nil "s"),
        ("place", .plain (.map [("host", .plain (.string "b") "r"),
          ("ports", .plain (.list []) "s")]) "t")]) "t" := by
  have data : plainTemplate.isPlainData = true := by decide
  have plain : ∀ stub ∈ plainStubs, stub.isPlainData = true := by decide
  obtain ⟨⟨outcome, world', applied, bare, -⟩, -⟩ :=
    cascade_plainData Engine.standard (by decide) plainTemplate data plainStubs plain none {}
  refine ⟨data, plain, outcome, world', applied, bare.trans ?_⟩
  rfl

end Cascade
