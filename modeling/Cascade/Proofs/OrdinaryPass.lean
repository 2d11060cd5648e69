import Cascade.Proofs.OrdinaryReferences

/-!
# Passes over ordinary trees

Without stubs and state, a pass over an ordinary tree has no effect but on the tree, whose
expressions receive their outcomes over the snapshot. From pass to pass these outcomes advance, so
that an expression with a value keeps it, and one that failed or depends on a failure keeps its kind
of diagnostic. If no expression that waited has got a value or a failure, the outcomes are the same
once more, down to their messages.

## Main definitions

* `Setting.outcomes`: the outcomes of expressions over a snapshot.

## Main statements

* `pass_ordinary`: what a pass over an ordinary tree leaves.
* `outcomes_advance`: outcomes advance from pass to pass.
* `exists_blocker_of_outcomes`: an expression that waits has a reference that waits.
-/

namespace Cascade

open Eval

/-! ### Outcomes over a snapshot -/

/-- The place of a node in a snapshot. -/
def Setting.bindingAt (s : Setting) (root : Node) (place : List String) : Binding :=
  ⟨s.scopeAt root place, place, place, place.map fun _ => none, s.depth⟩

/-- The outcomes of expressions over a snapshot, where they have no other effect. -/
def Setting.outcomes (engine : Engine) (deeper : Deeper) (s : Setting) (root : Node) : Outcomes :=
  fun e place =>
    match outcomeOf engine deeper e (s.bindingAt root place) {} with
    | some (outcome, _) => outcome
    | none => .error (.pending {})

/-- The tree after a pass, where passes have no other effect. -/
def Setting.after (engine : Engine) (deeper : Deeper) (s : Setting) (root : Node) : Node :=
  (root.advance (s.outcomes engine deeper root) []).getD (.plain .nil root.source)

section

variable {engine : Engine} {deeper : Deeper} {s : Setting} {root next node : Node}
  {place : List String} {e : Expr} {may blocked : Prop}

theorem child_bindingAt {key : String} :
    (s.bindingAt root place).child key = s.bindingAt root (place ++ [key]) := by
  simp [Setting.bindingAt, Setting.scopeAt, Binding.child]

theorem stubs_bindingAt : (s.bindingAt root place).document.stubs = s.stubs := rfl

variable (noLocals : s.locals = []) (outermost : s.outer = none)

include noLocals outermost

/-- A reference in an ordinary tree has a simple value if any. -/
theorem isSimple_of_resolve {r : Reference} {resolved : Resolved} {defaultKey : String}
    (ordinary : root.Ordinary) (untagged : r.tag = none)
    (resolves : r.resolve (s.scopeAt root place) defaultKey false = .ok resolved) :
    resolved.IsSimple := by
  obtain ⟨node, finds, complete, rfl⟩ := resolve_eq_ok_iff.mp resolves
  obtain ⟨way, -, reaches⟩ := lookup_of_find untagged noLocals outermost finds
  have simple := (ordinary.lookup? reaches).isSimple complete
  exact Resolved.isSimple_ofValue (Node.isSimple_iff.mp simple).2

/-- Over two ordinary snapshots, an expression advances as its references do. -/
theorem evaluate_over_snapshots (ordinary : root.Ordinary) (ordinary' : next.Ordinary)
    (source : next.source = root.source) (plain : e.isOrdinary)
    (references : ∀ r, .reference r ∈ e.walk → r.tag = none → Advances Unresolved.kind may blocked
      (r.resolve (s.scopeAt root place) engine.defaultKey false)
      (r.resolve (s.scopeAt next place) engine.defaultKey false)) :
    Related (Advances Unresolved.kind may blocked) Resolved.IsSimple (evaluate engine deeper e (s.bindingAt root place))
      (evaluate engine deeper e (s.bindingAt next place)) := by
  have sameSource : (s.bindingAt next place).source = (s.bindingAt root place).source := source
  refine evaluate_related sameSource e fun part member => ?_
  have known := Expr.isOrdinary_iff.mp plain part member
  refine ⟨Expr.isPlainPart_of_isOrdinaryPart known, ?_⟩
  rintro r rfl
  have untagged : r.tag = none := Option.isNone_iff_eq_none.mp known
  exact ⟨_, _, rfl, rfl, references r member untagged,
    fun a => isSimple_of_resolve noLocals outermost ordinary untagged,
    fun a => isSimple_of_resolve noLocals outermost ordinary' untagged⟩

omit noLocals outermost in
theorem outcomes_eq {o : Except Unresolved Resolved}
    (same : evaluate engine deeper e (s.bindingAt root place) = ofOutcome o) :
    s.outcomes engine deeper root e place = o := by
  rw [Setting.outcomes, outcomeOf, same]
  rfl

/-- The outcomes over two ordinary snapshots advance as the references do. -/
theorem outcomes_over_snapshots (ordinary : root.Ordinary) (ordinary' : next.Ordinary)
    (source : next.source = root.source) (plain : e.isOrdinary)
    (references : ∀ r, .reference r ∈ e.walk → r.tag = none → Advances Unresolved.kind may blocked
      (r.resolve (s.scopeAt root place) engine.defaultKey false)
      (r.resolve (s.scopeAt next place) engine.defaultKey false)) :
    Advances Unresolved.kind may blocked (s.outcomes engine deeper root e place)
      (s.outcomes engine deeper next e place) := by
  have related : Related (Advances Unresolved.kind may blocked) Resolved.IsSimple
      (evaluate engine deeper e (s.bindingAt root place))
      (evaluate engine deeper e (s.bindingAt next place)) :=
    evaluate_over_snapshots noLocals outermost ordinary ordinary' source plain references
  obtain ⟨o, o', same, same', advances, -⟩ := related
  rw [outcomes_eq same, outcomes_eq same']
  exact advances

/-- An ordinary expression is evaluated without effect, to a simple value if any. -/
theorem evaluate_ordinary (engine : Engine) (deeper : Deeper) (place : List String)
    (ordinary : root.Ordinary) (plain : e.isOrdinary) :
    ∃ o, evaluate engine deeper e (s.bindingAt root place) = ofOutcome o ∧
      ∀ r, o = .ok r → r.IsSimple := by
  have related : Related (Advances Unresolved.kind False True) Resolved.IsSimple
      (evaluate engine deeper e (s.bindingAt root place))
      (evaluate engine deeper e (s.bindingAt root place)) :=
    evaluate_over_snapshots noLocals outermost ordinary ordinary rfl plain
      fun r _ _ => .refl trivial _
  obtain ⟨o, -, same, -, -, known, -⟩ := related
  exact ⟨o, same, known⟩

theorem outcomeOf_ordinary (ordinary : root.Ordinary) (plain : e.isOrdinary) :
    outcomeOf engine deeper e (s.bindingAt root place) =
      pure (s.outcomes engine deeper root e place) := by
  obtain ⟨o, same, -⟩ := evaluate_ordinary noLocals outermost engine deeper place ordinary plain
  rw [outcomes_eq same, outcomeOf, same]
  rfl

theorem areSimple_outcomes (ordinary : root.Ordinary) :
    (s.outcomes engine deeper root).AreSimple := by
  intro e place r plain outcome
  obtain ⟨o, same, known⟩ := evaluate_ordinary noLocals outermost engine deeper place ordinary plain
  rw [outcomes_eq same] at outcome
  exact known r outcome

/-- An ordinary expression that waits has a reference that is stopped by an expression that
waits. -/
theorem exists_blocker_of_outcomes {u : Unresolved} (ordinary : root.Ordinary)
    (plain : e.isOrdinary) (outcome : s.outcomes engine deeper root e place = .error u)
    (waits : u.kind = .unresolved) :
    ∃ r way q found, .reference r ∈ e.walk ∧
      r.way? engine.defaultKey root place = some way ∧ (q <+: way ∨ way <+: q) ∧
      root.lookup? q engine.defaultKey = some found ∧ found.waits = true := by
  have advances : Advances Unresolved.kind False (∃ r way q found, .reference r ∈ e.walk ∧
      r.way? engine.defaultKey root place = some way ∧ (q <+: way ∨ way <+: q) ∧
      root.lookup? q engine.defaultKey = some found ∧ found.waits = true)
      (s.outcomes engine deeper root e place) (s.outcomes engine deeper root e place) := by
    refine outcomes_over_snapshots noLocals outermost ordinary ordinary rfl plain
      fun r member untagged => ?_
    cases resolves : r.resolve (s.scopeAt root place) engine.defaultKey false with
    | ok resolved => exact .value resolved
    | error u =>
      refine .same u fun waits => ?_
      obtain ⟨way, q, found, means, near, reaches, still⟩ :=
        exists_blocker_of_resolve ordinary untagged noLocals outermost resolves waits
      exact ⟨r, way, q, found, member, means, near, reaches, still⟩
  rw [outcome] at advances
  cases advances with
  | same u why => exact why waits
  | failing changes => exact changes.elim
  | waiting changes => exact changes.elim

/-- From an ordinary snapshot to the next one, the outcome of an expression advances. -/
theorem outcomes_advance {outcomes : Outcomes} (ordinary : root.Ordinary)
    (simple : outcomes.AreSimple) (continues : Continues outcomes engine.defaultKey may root [])
    (advances : root.advance outcomes [] = some next)
    (stands : root.lookup? place engine.defaultKey = some node) (written : node.expr? = some e)
    (plain : e.isOrdinary) :
    Advances Unresolved.kind may True (s.outcomes engine deeper root e place)
      (s.outcomes engine deeper next e place) :=
  outcomes_over_snapshots noLocals outermost ordinary (ordinary.advance simple advances)
    (ordinary.source_advance simple advances) plain fun _ _ untagged =>
      resolve_advances ordinary simple continues advances stands written untagged noLocals outermost

/-! ### The pass -/

omit noLocals outermost in
/-- Fields that become something without any other effect. -/
theorem flowFields_eq_filterMap {below : FlowBelow} {overridable : Bool} {b : Binding}
    {fields : Fields Node} (become : String → Node → Option Node)
    (plain : ∀ field ∈ fields, controlSuffix? field.1 = none)
    (each : ∀ field ∈ fields, below field.2 (b.child field.1) overridable =
      pure (become field.1 field.2)) :
    flowFields below b overridable fields = pure (fields.filterMap fun field =>
      (become field.1 field.2).map fun child => (field.1, child)) := by
  induction fields with
  | nil => rw [flowFields, List.filterMap_nil]
  | cons field rest ih =>
    obtain ⟨key, child⟩ := field
    obtain ⟨name, names⟩ := List.forall_mem_cons.mp plain
    obtain ⟨first, others⟩ := List.forall_mem_cons.mp each
    rw [flowFields, if_neg (ne_directiveKey name), first, pure_bind, ih names others,
      List.filterMap_cons]
    dsimp only
    rw [pure_bind]
    cases become key child <;> rfl

variable (noStubs : s.stubs = []) (noState : s.state = none)

omit noLocals outermost

include noStubs

/-- An expression without markers at its top receives its outcome. -/
theorem flowExpression_of_unmarked {overridable : Bool} (unmarked : e.staticInfo = {})
    (outcome : outcomeOf engine deeper e (s.bindingAt root place) =
      pure (s.outcomes engine deeper root e place)) :
    flowExpression engine deeper node e (s.bindingAt root place) overridable =
      pure (match s.outcomes engine deeper root e place with
        | .ok resolved => resolvedNode node e resolved
        | .error u => some (node.stillExpression e u)) := by
  have noState : expressionState? engine node e (s.bindingAt root place) = none := by
    rw [expressionState?, unmarked]
    rfl
  unfold flowExpression
  rw [expressionOverride?_of_noStubs (stubs_bindingAt.trans noStubs), ite_self, noState, outcome]
  dsimp only
  rw [pure_bind]
  cases s.outcomes engine deeper root e place <;> rfl

theorem flowNode_of_unmarked {fuel : Nat} {overridable : Bool} (written : node.expr? = some e)
    (unmarked : e.staticInfo = {})
    (outcome : outcomeOf engine deeper e (s.bindingAt root place) =
      pure (s.outcomes engine deeper root e place)) :
    flowNode engine deeper (fuel + 1) node (s.bindingAt root place) overridable =
      pure (node.advance (s.outcomes engine deeper root) place) := by
  rw [Node.advance_of_expr? written, flowNode]
  obtain ⟨value, annotations, source⟩ := node
  cases value with
  | expression e' =>
    cases written
    exact flowExpression_of_unmarked noStubs unmarked outcome
  | string text =>
    unfold Node.expr? at written
    dsimp only at written ⊢
    split at written
    · next e' shape =>
      cases written
      rw [flowString, shape]
      exact flowExpression_of_unmarked noStubs unmarked outcome
    · cases written
  | _ => cases written

theorem flowNode_of_isSimple {fuel : Nat} {overridable : Bool} (simple : node.isSimple = true)
    (enough : node.height < fuel) :
    flowNode engine deeper fuel node (s.bindingAt root place) overridable = pure (some node) :=
  flowNode_inert (Node.isInert_of_isPlainData (Node.isPlainData_of_isSimple simple)) enough
    (.inr (.inr (stubs_bindingAt.trans noStubs)))

include noState

/-- A map with plain keys is flowed field by field. -/
theorem flowNode_of_plainKeys {fuel : Nat} {overridable : Bool} {fields : Fields Node}
    {source : String} (become : String → Node → Option Node)
    (plain : ∀ field ∈ fields, controlSuffix? field.1 = none)
    (each : ∀ field ∈ fields, ∀ overridable, flowNode engine deeper fuel field.2
      (s.bindingAt root (place ++ [field.1])) overridable = pure (become field.1 field.2)) :
    flowNode engine deeper (fuel + 1) ⟨.map fields, {}, source⟩ (s.bindingAt root place)
      overridable = pure (some ⟨.map (fields.filterMap fun field =>
        (become field.1 field.2).map fun child => (field.1, child)), {}, source⟩) := by
  have noDirective : ((Fields.find? fields directiveKey).bind fun written =>
      written.expr?.map fun e => (written, e)) = none := by
    rw [find?_directiveKey_of_data plain, Option.bind_none]
  have flowed {overridable : Bool} : flowFields (flowNode engine deeper fuel)
      (s.bindingAt root place) overridable fields = pure (fields.filterMap fun field =>
        (become field.1 field.2).map fun child => (field.1, child)) := by
    refine flowFields_eq_filterMap become plain fun field member => ?_
    rw [child_bindingAt]
    exact each field member overridable
  rw [flowNode]
  dsimp only
  rw [flowMap_of_kept (fun _ => mapOverride?_of_noStubs (stubs_bindingAt.trans noStubs)) noState
    noDirective (by simp) (controlNames_of_data plain), flowDirective, pure_bind]
  change flowFields (flowNode engine deeper fuel) (s.bindingAt root place) _ fields >>= _ = _
  rw [flowed, pure_bind]
  rfl

include noLocals outermost

/-- Each node of an ordinary tree receives its outcome over the snapshot. -/
theorem flowNode_ordinary {fuel : Nat} {overridable : Bool} (snapshot : root.Ordinary)
    (ordinary : node.Ordinary) (enough : node.height < fuel) :
    flowNode engine deeper fuel node (s.bindingAt root place) overridable =
      pure (node.advance (s.outcomes engine deeper root) place) := by
  induction ordinary generalizing fuel overridable place with
  | simple simple =>
    rw [flowNode_of_isSimple noStubs simple enough, Node.advance_of_isSimple simple]
  | @map fields source distinct plain inside ih =>
    obtain ⟨fuel, rfl⟩ : ∃ n, fuel = n + 1 := ⟨fuel - 1, by omega⟩
    rw [Node.height, Value.height] at enough
    rw [flowNode_of_plainKeys noStubs noState
      (fun key child => child.advance (s.outcomes engine deeper root) (place ++ [key])) plain
      fun field member _ => ?_, Node.advance_map, advanceFields_eq_filterMap]
    have lower := height_le_fieldsHeight member
    exact ih field member (by omega)
  | @expression node e written plain clear =>
    obtain ⟨fuel, rfl⟩ : ∃ n, fuel = n + 1 := ⟨fuel - 1, by omega⟩
    exact flowNode_of_unmarked noStubs written (Expr.staticInfo_of_isOrdinary plain)
      (outcomeOf_ordinary noLocals outermost snapshot plain)

/-- A pass over an ordinary tree has no effect but on the tree. -/
theorem pass_ordinary (ordinary : root.Ordinary) :
    pass engine deeper s root = pure (s.after engine deeper root) := by
  have flowed : flowNode engine deeper (root.height + itemsHeight s.stubs + 1 + deeper.fuel) root
      (s.bindingAt root []) s.overridable = pure (root.advance (s.outcomes engine deeper root) []) :=
    flowNode_ordinary noLocals outermost noStubs noState ordinary ordinary (by omega)
  rw [pass]
  change flowNode engine deeper _ root (s.bindingAt root []) _ >>= _ = _
  rw [flowed, pure_bind]
  rfl

end

end Cascade
