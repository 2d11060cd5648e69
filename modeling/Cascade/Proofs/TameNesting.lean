import Cascade.Flow.Nested
import Cascade.Proofs.TameFlow

/-!
# Nested tame documents

The passes over a tame document come to an end, since there are finitely many of them, and what they
settle to is tame. If stubs put no expressions into the document, a pass that changes nothing and
leaves nothing to report has nothing left to do: the settled tree is still. Prepared stubs are such
trees, since nothing overrides a stub, and so are the values of nested documents.

Calls and nested documents go one level deeper. As levels run out, the calls that lead one level
deeper come to an end by induction on the levels, each with as many steps as it likes.

## Main definitions

* `Setting.Tame`, `Setting.SettlesTo`: what passes share, and what they settle to.
* `Flow.Halts`: computations over documents that come to an end.

## Main statements

* `settle_halts`: the passes over a tame document come to an end.
* `level_halts`: so do calls and nested documents, at every level.
-/

namespace Cascade

open Eval

/-! ### Texts of still trees -/

theorem Node.Still.isEvaluated {node : Node} (still : node.Still) : node.isEvaluated = true :=
  Node.pending_eq_zero_iff.mp still.pending

/-- A pass that takes nothing from stubs and nothing from a state document leaves the text form of a
still node. -/
theorem flowNode_keepsText {engine : Engine} {deeper : Deeper} {fuel : Nat} {node : Node}
    {binding : Binding} (still : node.Still) (stateless : binding.document.state = none) :
    Run.Yields (flowNode engine deeper fuel node binding false) fun result =>
      ∀ n ∈ result, n.value.asText? = node.value.asText? := by
  cases fuel with
  | zero => exact .exhausted
  | succ fuel =>
  have evaluated := Node.isEvaluated_iff.mp still.isEvaluated
  induction node using Node.treeInduction with
  | map fields annotations source =>
    have noControl : controlNames fields = [] := List.length_eq_zero_iff.mp
      (controlCount_eq_zero_iff.mpr fun field member => ((Node.still_map_iff.mp still).2 field member).1)
    rw [flowNode]
    dsimp only
    rw [flowMap_of_evaluated stateless (Value.isEvaluated_map.mp evaluated),
      runControl_eq_none_iff.mpr noControl]
    refine Run.Yields.bind (P := fun _ => True) (fun _ _ _ _ => trivial) fun flowed _ => .pure ?_
    rintro _ ⟨⟩
    rfl
  | list items annotations source =>
    rw [flowNode]
    dsimp only
    rw [flowList_of_evaluated (Value.isEvaluated_list.mp evaluated)]
    refine Run.Yields.bind (P := fun _ => True) (fun _ _ _ _ => trivial) fun flowed _ => .pure ?_
    rintro _ ⟨⟩
    rfl
  | leaf value annotations source notList notMap =>
    rw [flowNode_leaf_of_evaluated notList notMap evaluated]
    refine .pure ?_
    rintro _ ⟨⟩
    rfl

/-! ### Passes -/

/-- What all passes over a document share is tame. -/
structure Setting.Tame (s : Setting) : Prop where
  stubs : ∀ stub ∈ s.stubs, stub.Tame true
  state : ∀ state ∈ s.state, state.Still
  locals : ∀ layer ∈ s.locals, ∀ field ∈ layer, field.2.Tame true
  outer : ∀ outer ∈ s.outer, outer.Tame

/-- Stubs put no expressions into the document. -/
def Setting.IsCalm (s : Setting) : Prop := s.overridable = true → ∀ stub ∈ s.stubs, stub.Still

/-- The text form of the result, if it has one, is that of the document. -/
def KeepsText (root result : Node) : Prop :=
  result.value.asText? = none ∨ result.value.asText? = root.value.asText?

theorem KeepsText.trans {root next result : Node} (first : KeepsText root next)
    (later : KeepsText next result) : KeepsText root result := by
  rcases later with none | same
  · exact .inl none
  · rw [KeepsText, same]
    exact first

/-- What a pass makes of a document. -/
structure Setting.PassesTo (s : Setting) (root next : Node) : Prop where
  tame : next.Tame true
  advances : s.IsCalm → root.Advances next
  text : root.Still → s.overridable = false → s.state = none → KeepsText root next

/-- What a document settles to. -/
structure Setting.SettlesTo (s : Setting) (root tree : Node) : Prop where
  tame : tree.Tame true
  still : s.IsCalm → tree.isReported = false → tree.Still
  text : root.Still → s.overridable = false → s.state = none → KeepsText root tree

section

variable {s : Setting} {root next tree : Node}

theorem Setting.Tame.rootBinding (shared : s.Tame) (tame : root.Tame true) :
    (s.rootBinding root).Tame :=
  Scope.tame_iff.mpr ⟨Document.tame_iff.mpr ⟨tame, shared.stubs, shared.state⟩, shared.locals,
    shared.outer⟩

theorem Setting.isCalm_of_not_overridable (fixed : s.overridable = false) : s.IsCalm := by
  intro allowed
  rw [fixed] at allowed
  cases allowed

/-- A pass that changes nothing settles the document. -/
theorem Setting.PassesTo.settles (passes : s.PassesTo root next) (same : next.same root = true) :
    s.SettlesTo root next where
  tame := passes.tame
  still calm unreported := by
    have stays := Node.pending_of_same same
    rcases (passes.advances calm).onward with reported | fewer | still
    · rw [unreported] at reported
      cases reported
    · omega
    · exact still
  text := passes.text

theorem Setting.PassesTo.then (passes : s.PassesTo root next) (later : s.SettlesTo next tree) :
    s.SettlesTo root tree where
  tame := later.tame
  still := later.still
  text still fixed stateless :=
    have kept := (passes.advances (isCalm_of_not_overridable fixed)).still still
    (passes.text still fixed stateless).trans (later.text kept fixed stateless)

variable {engine : Engine} {deeper : Nat → Deeper}
  (functions : engine.functions = Standard.functions)
  (controls : engine.controls = Control.standard) (nested : DeeperHalts deeper) (shared : s.Tame)

include functions controls nested shared

theorem pass_halts (tame : root.Tame true) :
    Run.Halts (fun steps => pass engine (deeper steps) s root) (s.PassesTo root) := by
  have flows : Run.Halts (fun steps => flowNode engine (deeper steps)
      (root.height + itemsHeight s.stubs + 1 + (deeper steps).fuel) root (s.rootBinding root)
      s.overridable) (LeavesAll (IsCalm (s.rootBinding root) s.overridable) root) :=
    flowNode_halts functions controls nested root
      (nested.fuel.add (root.height + itemsHeight s.stubs + 1)) tame (shared.rootBinding tame)
  -- Which text is left is no question of halting, and holds of every number of steps.
  have texts : ∀ steps, Run.Yields (flowNode engine (deeper steps)
      (root.height + itemsHeight s.stubs + 1 + (deeper steps).fuel) root (s.rootBinding root)
      s.overridable) fun result => root.Still → s.overridable = false → s.state = none →
        ∀ n ∈ result, n.value.asText? = root.value.asText? := by
    intro steps world world' result answer still fixed stateless
    rw [fixed] at answer
    have unset : (s.rootBinding root).document.state = none := stateless
    exact flowNode_keepsText still unset world world' result answer
  unfold pass
  refine (flows.and_yields texts).bind fun flowed known => .pure ?_
  obtain ⟨leaves, texts⟩ := known
  cases flowed with
  | none =>
    have nothing : (Node.plain .nil root.source).Still := ⟨Node.tame_plain.mpr Value.tame_nil, rfl⟩
    exact ⟨nothing.1.asWritten, fun _ => .of_still nothing, fun _ _ _ => .inl rfl⟩
  | some result =>
    obtain ⟨tame, advances⟩ := leaves result rfl
    exact ⟨tame, advances, fun still fixed stateless => .inr (texts still fixed stateless result rfl)⟩

theorem settleWithin_halts {passes : Nat} (tame : root.Tame true) :
    Run.Halts (fun steps => settleWithin engine (deeper steps) s passes root) fun settled =>
      ∀ tree ∈ settled, s.SettlesTo root tree := by
  induction passes generalizing root with
  | zero => exact .pure (by simp)
  | succ passes ih =>
    simp only [settleWithin]
    refine (pass_halts functions controls nested shared tame).bind fun next known => ?_
    split
    · next same =>
      refine .pure ?_
      rintro _ ⟨⟩
      exact known.settles same
    · exact (ih known.tame).mono fun settled later tree found => known.then (later tree found)

end

/-! ### Seeding -/

section

variable {defaultKey : String} {node : Node} {binding : Binding}

theorem tame_seedOverrides (place : binding.Tame) (tame : node.Tame true) :
    (seedOverrides defaultKey node binding).Tame true := by
  induction node using Node.treeInduction generalizing binding with
  | list items annotations source ih =>
    have inside := Value.tame_list.mp tame.value
    rw [seedOverrides]
    split
    · exact tame
    · split
      · exact tame
      · split
        · next result found => exact (overrides_of_stubOverride? found).tame place
        · refine Node.tame_iff.mpr (Value.tame_list.mpr fun node member => ?_)
          obtain ⟨item, known, segment, rfl⟩ := mem_seedItems member
          exact ih item known (place.entry _ _) (inside item known)
  | map fields annotations source ih =>
    obtain ⟨sorted, inside⟩ := Value.tame_map.mp tame.value
    rw [seedOverrides]
    split
    · exact tame
    · split
      · next result found => exact (overrides_of_mapOverride? found).tame place
      · split
        · exact tame
        · rw [seedFields_eq_map]
          refine Node.tame_iff.mpr (Value.tame_map.mpr ⟨?_, fun field member => ?_⟩)
          · rw [Fields.Sorted, List.map_map]
            exact sorted
          · obtain ⟨written, known, rfl⟩ := List.mem_map.mp member
            have before := inside written known
            by_cases directive : written.1 = directiveKey
            · simp only [directive, if_true]
              exact directive ▸ before
            · simp only [directive, if_false]
              exact ⟨before.bare, ih written known (place.child _) before.tame, fun key =>
                absurd key directive⟩
  | leaf value annotations source notList notMap =>
    have overridden {override : Option Node}
        (overrides : ∀ n, override = some n → Overrides defaultKey binding n) :
        (override.getD ⟨value, annotations, source⟩).Tame true := by
      cases found : override with
      | none => exact tame
      | some result => exact (overrides result found).tame place
    cases value with
    | list items => exact absurd rfl (notList items)
    | map fields => exact absurd rfl (notMap fields)
    | _ =>
      simp only [seedOverrides]
      split
      · exact tame
      · split
        · exact overridden fun _ => overrides_of_expressionOverride?
        · exact overridden fun _ => overrides_of_stubOverride?

end

section

variable {s : Setting} {root : Node} {engine : Engine} {deeper : Nat → Deeper}
  (functions : engine.functions = Standard.functions)
  (controls : engine.controls = Control.standard) (nested : DeeperHalts deeper) (shared : s.Tame)

include functions controls nested shared

/-- The passes over a tame document come to an end. -/
theorem settle_halts (tame : root.Tame true) :
    Run.Halts (fun steps => settle engine (deeper steps) s root) fun settled =>
      ∀ tree ∈ settled, s.SettlesTo root tree := by
  have seeded : (s.seeded engine root).Tame true := by
    rw [Setting.seeded]
    split
    · exact tame_seedOverrides (shared.rootBinding tame) tame
    · exact tame
  refine (settleWithin_halts functions controls nested shared seeded).mono
    fun settled known tree found => ?_
  obtain ⟨tame, still, text⟩ := known tree found
  refine ⟨tame, still, fun quiet fixed stateless => ?_⟩
  have same : s.seeded engine root = root := by
    rw [Setting.seeded, fixed]
    rfl
  rw [same] at text
  exact text quiet fixed stateless

end

/-! ### Results -/

theorem keys_strip_sublist (temporary : Bool) (fields : Fields Node) :
    (Fields.keys (stripFields temporary fields)).Sublist (Fields.keys fields) := by
  induction fields with
  | nil => rw [stripFields]
  | cons field rest ih =>
    obtain ⟨key, child⟩ := field
    rw [stripFields]
    cases child.strip? temporary with
    | none => exact ih.cons _
    | some stripped => exact ih.cons_cons _

theorem Node.value_of_strip? {temporary : Bool} {node result : Node}
    (kept : node.strip? temporary = some result) :
    result.value = Value.strip temporary node.value := by
  obtain ⟨value, annotations, source⟩ := node
  rw [Node.strip?] at kept
  split at kept
  · cases kept
  · cases kept
    rfl

theorem Value.asText?_strip (temporary : Bool) (value : Value) :
    (Value.strip temporary value).asText? = value.asText? := by
  cases value <;> rfl

theorem Value.strip_leaf {temporary : Bool} {value : Value} (notList : ∀ items, value ≠ .list items)
    (notMap : ∀ fields, value ≠ .map fields) : Value.strip temporary value = value := by
  cases value with
  | list items => exact absurd rfl (notList items)
  | map fields => exact absurd rfl (notMap fields)
  | _ => rfl

theorem Node.expr?_of_strip? {temporary : Bool} {node result : Node}
    (kept : node.strip? temporary = some result) : result.expr? = node.expr? := by
  rw [Node.expr?, Node.expr?, Node.value_of_strip? kept]
  cases node.value <;> rfl

/-- Nothing is left to do in what remains of a still tree. -/
theorem Node.Still.strip? {temporary : Bool} {node result : Node} (still : node.Still)
    (kept : node.strip? temporary = some result) : result.Still := by
  induction node using Node.treeInduction generalizing result with
  | list items annotations source ih =>
    suffices calm : (Node.mk (Value.strip temporary (.list items)) annotations source).Still from
      calm.of_value (Node.value_of_strip? kept)
    rw [Value.strip, stripItems_eq_filterMap, Node.still_list_iff]
    intro node member
    obtain ⟨item, known, stripped⟩ := List.mem_filterMap.mp member
    exact ih item known (Node.still_list_iff.mp still item known) stripped
  | map fields annotations source ih =>
    suffices calm : (Node.mk (Value.strip temporary (.map fields)) annotations source).Still from
      calm.of_value (Node.value_of_strip? kept)
    have inside := (Node.still_map_iff.mp still).2
    obtain ⟨sorted, tame⟩ := Value.tame_map.mp still.1.value
    have remains : ∀ field ∈ stripFields temporary fields,
        isBare field.1 = true ∧ IsPlainKey field.1 ∧ field.2.Still := by
      rw [stripFields_eq_filterMap]
      intro field member
      obtain ⟨written, known, stripped⟩ := List.mem_filterMap.mp member
      obtain ⟨child, below, rfl⟩ := Option.map_eq_some_iff.mp stripped
      obtain ⟨plain, before⟩ := inside written known
      exact ⟨(tame written known).bare, plain, ih written known before below⟩
    refine Node.still_map_iff.mpr ⟨Node.tame_iff.mpr (Value.tame_map.mpr
      ⟨sorted.sublist (keys_strip_sublist temporary fields), ?_⟩), ?_⟩
    · intro field member
      obtain ⟨bare, -, quiet⟩ := remains field member
      exact ⟨bare, quiet.1.asWritten, fun _ => .inr quiet⟩
    · exact fun field member => (remains field member).2
  | leaf value annotations source notList notMap =>
    exact still.of_value ((Node.value_of_strip? kept).trans (Value.strip_leaf notList notMap))

theorem Node.Tame.strip? {temporary : Bool} {node result : Node} (tame : node.Tame true)
    (kept : node.strip? temporary = some result) : result.Tame true := by
  induction node using Node.treeInduction generalizing result with
  | list items annotations source ih =>
    rw [Node.tame_iff, Node.value_of_strip? kept, Value.strip, stripItems_eq_filterMap,
      Value.tame_list]
    intro node member
    obtain ⟨item, known, stripped⟩ := List.mem_filterMap.mp member
    exact ih item known (Value.tame_list.mp tame.value item known) stripped
  | map fields annotations source ih =>
    obtain ⟨sorted, inside⟩ := Value.tame_map.mp tame.value
    rw [Node.tame_iff, Node.value_of_strip? kept, Value.strip]
    refine Value.tame_map.mpr ⟨sorted.sublist (keys_strip_sublist temporary fields), ?_⟩
    rw [stripFields_eq_filterMap]
    intro field member
    obtain ⟨written, known, stripped⟩ := List.mem_filterMap.mp member
    obtain ⟨child, below, rfl⟩ := Option.map_eq_some_iff.mp stripped
    obtain ⟨bare, before, directive⟩ := inside written known
    refine ⟨bare, ih written known before below, fun key => ?_⟩
    rw [Node.expr?_of_strip? below]
    exact (directive key).imp_right fun still => still.strip? below
  | leaf value annotations source notList notMap =>
    rw [Node.tame_iff, Node.value_of_strip? kept, Value.strip_leaf notList notMap]
    exact tame.value

/-! ### Stubs -/

/-- A computation over documents comes to an end, with a document that has a property or with an
error. -/
def Flow.Halts {α : Type} (f : Nat → Flow α) (P : α → Prop) : Prop :=
  Run.Halts (fun steps => (f steps).run) fun outcome => ∀ a, outcome = .ok a → P a

namespace Flow.Halts

variable {α β : Type} {P : α → Prop} {Q : β → Prop}

theorem pure {a : α} (holds : P a) : Flow.Halts (fun _ => Pure.pure a) P := by
  refine Run.Halts.pure ?_
  rintro _ ⟨⟩
  exact holds

theorem throw {error : FlowError} :
    Flow.Halts (fun _ => (MonadExcept.throw error : Flow α)) P := by
  refine Run.Halts.pure ?_
  rintro _ ⟨⟩

theorem bind {f : Nat → Flow α} {next : Nat → α → Flow β} (first : Flow.Halts f P)
    (later : ∀ a, P a → Flow.Halts (fun steps => next steps a) Q) :
    Flow.Halts (fun steps => f steps >>= next steps) Q := by
  refine Run.Halts.bind first fun outcome known => ?_
  cases outcome with
  | ok a => exact later a (known a rfl)
  | error failure =>
    refine Run.Halts.pure ?_
    rintro _ ⟨⟩

theorem lift {r : Nat → Run α} (halts : Run.Halts r P) :
    Flow.Halts (fun steps => (ExceptT.lift (r steps) : Flow α)) P := by
  change Run.Halts (fun steps => Except.ok <$> r steps) _
  simp only [map_eq_pure_bind]
  refine halts.bind fun a holds => Run.Halts.pure ?_
  rintro _ ⟨⟩
  exact holds

end Flow.Halts

/-- Prepared stubs are tame, and still if unresolved nodes are not kept. -/
def Prepared.Tame (keep : Bool) (prepared : Prepared) : Prop :=
  ∀ stub ∈ prepared.stubs, stub.Tame true ∧ (keep = false → stub.Still)

section

variable {engine : Engine} {deeper : Nat → Deeper}
  (functions : engine.functions = Standard.functions)
  (controls : engine.controls = Control.standard) (nested : DeeperHalts deeper)

include functions controls nested

theorem settled_halts {s : Setting} {root : Node} (shared : s.Tame) (tame : root.Tame true) :
    Flow.Halts (fun steps => settled engine (deeper steps) s root) (s.SettlesTo root) := by
  unfold settled
  refine (Flow.Halts.lift (settle_halts functions controls nested shared tame)).bind
    fun settled known => ?_
  split
  · next tree => exact .pure (known tree rfl)
  · exact .throw

theorem prepareFrom_halts {base : DocumentId} {outer : Option Scope} {depth : Nat} {keep : Bool}
    {number : Nat} {stubs : List Node} (outside : ∀ scope ∈ outer, scope.Tame)
    (tame : ∀ stub ∈ stubs, stub.Tame true) :
    Flow.Halts
      (fun steps => prepareFrom engine (deeper steps) base outer depth keep number stubs)
      (Prepared.Tame keep) := by
  induction stubs generalizing number with
  | nil =>
    simp only [prepareFrom]
    exact .pure (by simp [Prepared.Tame])
  | cons stub rest ih =>
    simp only [prepareFrom]
    refine (ih fun stub member => tame stub (List.mem_cons_of_mem _ member)).bind
      fun later known => ?_
    have shared : Setting.Tame
        { id := base.nested ["stub" ++ toString number], stubs := later.stubs, outer, depth } :=
      ⟨fun stub member => (known stub member).1, by simp, by simp, outside⟩
    refine (settled_halts functions controls nested shared (tame stub List.mem_cons_self)).bind
      fun tree settled => ?_
    split
    · exact .throw
    · next accepted =>
      refine .pure (List.forall_mem_cons.mpr ⟨?_, known⟩)
      -- A stub of which reports list something is not accepted unless such nodes are kept.
      have quiet (strict : keep = false) : tree.Still := by
        have empty : (Report.collect tree engine.defaultKey).isEmpty = true := by
          simpa [strict] using accepted
        exact settled.still (Setting.isCalm_of_not_overridable rfl) (isEmpty_collect_iff.mp empty)
      rw [Node.orNil]
      cases kept : tree.strip? false with
      | none =>
        exact ⟨Node.tame_plain.mpr Value.tame_nil, fun _ => ⟨Node.tame_plain.mpr Value.tame_nil, rfl⟩⟩
      | some stripped => exact ⟨settled.tame.strip? kept, fun strict => (quiet strict).strip? kept⟩

/-! ### Levels -/

theorem prepareNested_halts {id : DocumentId} {stubs : List Node} {binding : Binding}
    (place : binding.Tame) (tame : ∀ stub ∈ stubs, stub.Tame true) :
    Eval.Halts (fun steps => prepareNested engine (deeper steps) id stubs binding)
      fun prepared => ∀ stub ∈ prepared, stub.Still := by
  have outside : ∀ scope ∈ some binding.scope, scope.Tame := by
    rintro _ ⟨⟩
    exact place
  unfold prepareNested
  refine (Eval.Halts.lift
    (prepareFrom_halts functions controls nested outside tame)).bind fun outcome known => ?_
  split
  · next prepared => exact .pure fun stub member => (known prepared rfl stub member).2 rfl
  · exact .throw (isExplained_toUnresolved _ _)
  · exact .fail

/-- The value of a nested document is still. -/
theorem flowNested_halts {node : Node} {binding : Binding} {names : Option (Fields Node)}
    {stubs : Option (List Node)} (tame : node.Tame true) (place : binding.Tame)
    (named : ∀ layer ∈ names, ∀ field ∈ layer, field.2.Tame true)
    (trees : ∀ trees ∈ stubs, ∀ stub ∈ trees, stub.Tame true) :
    Eval.Halts (fun steps => flowNested engine (deeper steps) node binding names stubs) fun r =>
      r.value.Still ∧ (node.Still → stubs = none →
        r.value.asText? = none ∨ r.value.asText? = node.value.asText?) := by
  have given : ∀ stub ∈ stubs.getD [], stub.Tame true := by
    cases stubs with
    | none => simp
    | some known => exact trees known rfl
  unfold flowNested
  refine (prepareNested_halts functions controls nested place given).bind fun prepared known => ?_
  have shared : Setting.Tame
      { id := binding.document.id.nested binding.path, stubs := prepared, locals := names.toList,
        outer := some binding.scope, depth := binding.depth + 1, overridable := stubs.isSome } := by
    refine ⟨fun stub member => (known stub member).1.asWritten, by simp,
      fun layer member => named layer (Option.mem_toList.mp member), ?_⟩
    rintro _ ⟨⟩
    exact place
  refine (Eval.Halts.lift (settle_halts functions controls nested shared tame)).bind
    fun settled outcome => ?_
  split
  · next tree =>
    obtain ⟨-, still, text⟩ := outcome tree rfl
    unfold nestedValue
    dsimp only
    split
    · next empty =>
      have quiet := still (fun _ => known) (isEmpty_collect_iff.mp empty)
      refine .pure ?_
      change (((tree.strip? true).map Node.value).getD .nil).Still ∧ _
      cases kept : tree.strip? true with
      | none => exact ⟨⟨Value.tame_nil, rfl⟩, fun _ _ => .inl rfl⟩
      | some stripped =>
        refine ⟨Node.still_iff.mp (quiet.strip? kept), fun same alone => ?_⟩
        have text := text same (by rw [alone]; rfl) rfl
        rw [KeepsText, ← Value.asText?_strip true, ← Node.value_of_strip? kept] at text
        exact text
    · exact .throw (isExplained_toUnresolved _ _)
  · exact .fail

end

/-- At every level, calls and nested documents come to an end. -/
theorem level_halts {engine : Engine} (functions : engine.functions = Standard.functions)
    (controls : engine.controls = Control.standard) (levels : Nat) :
    DeeperHalts fun steps => level engine steps levels := by
  induction levels with
  | zero => exact ⟨fun _ _ _ _ _ _ => .fail, fun _ _ _ _ _ _ _ _ => .fail, unbounded_id⟩
  | succ levels ih =>
    exact ⟨fun _ _ _ tame arguments place => invokeLambda_halts functions ih tame arguments place,
      fun _ _ _ _ tame place named trees =>
        flowNested_halts functions controls ih tame place named trees, unbounded_id⟩

end Cascade
