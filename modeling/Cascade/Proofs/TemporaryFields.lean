import Cascade.Proofs.DefaultValues

/-!
# Temporary fields

A field is marked as temporary in its text, by a marker before an expression or by one as the
directive of a map. The flag is on the node once the text is evaluated, and no step after that takes
it away, controls aside. Before that, the override of an expression takes the flag from the text.
The override of a map as a whole does not: there the stub value must be temporary itself.

A run never reaches the field by another way than the maps around it. A stub value in place of one
of these maps shuts the way for good.

## Main definitions

* `Node.isTemporary`: the flag is on the node, or in its text.
* `Node.IsMarkedAt`: a path of fields leads to a temporary node.
* `Node.Leads`: a path of fields ends at nodes with a property, or ends early.
* `uncontrolledWithin`: no snapshot of a run has a control at a place.

## Main statements

* `flowNode_of_isTemporary`: a pass leaves a temporary node flagged, or reported.
* `Node.IsMarkedAt.injected`: what stubs add leaves the mark in the template.
* `cascade_temporaryField`: a temporary field is not in the document of a cascade.
-/

namespace Cascade

/-! ### Markers -/

/-- The expression is marked as temporary. -/
def Expr.marksTemporary : Expr → Bool
  | .grouped inner => inner.marksTemporary
  | .marked markers _ => markers.contains (.flag .temporary)
  | _ => false

theorem Info.temporary_foldl_addMarker (markers : List Marker) (info : Info) :
    (markers.foldl Info.addMarker info).temporary =
      (info.temporary || markers.contains (.flag .temporary)) := by
  induction markers generalizing info with
  | nil => simp
  | cons marker rest ih =>
    have step : (info.addMarker marker).temporary =
        (info.temporary || Marker.flag .temporary == marker) := by
      rcases marker with ⟨_ | _⟩ | _ <;> simp [Info.addMarker]
    rw [List.foldl_cons, ih, step, List.contains_cons, Bool.or_assoc]

theorem Expr.temporary_staticInfo {e : Expr} (marks : e.marksTemporary = true) :
    e.staticInfo.temporary = true := by
  induction e using Expr.marksTemporary.induct with
  | case1 inner ih => exact ih marks
  | case2 markers inner =>
    rw [Expr.marksTemporary] at marks
    rw [Expr.staticInfo, Info.ofMarkers, Info.temporary_foldl_addMarker]
    cases inner with
    | none => rw [Expr.markers, marks, Bool.or_true]
    | some inner => simp [Expr.markers, List.contains_iff_mem.mp marks]
  | case3 e notGrouped notMarked => simp [Expr.marksTemporary] at marks

section

variable {engine : Engine} {deeper : Deeper} {b : Binding} {overridable : Bool}
  {world world' : World}

/-- The value of an expression that is marked as temporary is temporary. -/
theorem temporary_of_evaluate {e : Expr} (marks : e.marksTemporary = true) {r : Resolved}
    (yields : outcomeOf engine deeper e b world = some (.ok r, world')) :
    r.info.temporary = true := by
  induction e using Expr.marksTemporary.induct generalizing r world world' with
  | case1 inner ih =>
    rw [outcomeOf, evaluate] at yields
    exact ih marks yields
  | case2 markers inner =>
    have flagged : ∀ (made : Resolved) (bare : Bool),
        (made.withMarkers markers bare).info.temporary = true := by
      intro made bare
      rw [Expr.marksTemporary] at marks
      exact (Info.temporary_foldl_addMarker markers made.info).trans
        (by rw [marks, Bool.or_true])
    cases inner with
    | none =>
      rw [outcomeOf, evaluate] at yields
      cases yields
      exact flagged _ _
    | some inner =>
      rw [outcomeOf, evaluate] at yields
      split at yields
      · cases yields
        exact flagged _ _
      · obtain ⟨resolved, middle, -, made⟩ := Eval.eq_of_bind yields
        cases made
        exact flagged _ _
  | case3 e notGrouped notMarked => simp [Expr.marksTemporary] at marks

/-! ### Temporary nodes -/

/-- The expression that says in the text of a node what the node is: the directive of a map, or the
node itself. -/
def Node.marking? (node : Node) : Option Expr :=
  match node.value with
  | .map fields => (Fields.find? fields directiveKey).bind Node.expr?
  | _ => node.expr?

/-- The node is flagged as temporary, or its text says that it is. A map that is flagged as state
may take its value from the state document, without a look at its text. -/
def Node.isTemporary (node : Node) : Bool :=
  node.annotations.temporary ||
    !node.annotations.state && node.marking?.any Expr.marksTemporary

theorem Node.isTemporary_iff {node : Node} : node.isTemporary = true ↔
    node.annotations.temporary = true ∨
      node.annotations.state = false ∧ node.marking?.any Expr.marksTemporary = true := by
  rw [isTemporary, Bool.or_eq_true, Bool.and_eq_true, Bool.not_eq_true']

theorem Node.marking?_of_unmapped {node : Node} (notMap : ∀ fields, node.value ≠ .map fields) :
    node.marking? = node.expr? := by
  unfold marking?
  split
  · next fields shape => exact absurd shape (notMap fields)
  · rfl

/-- The node at a place keeps its mark: the flag is on it, or it is still marked by its text, and a
report lists it. No map is marked where none was before. -/
def Node.KeepsMark (before after : Node) : Prop :=
  after.annotations.temporary = true ∨
    after.isTemporary = true ∧ after.isReported = true ∧
      ∀ fields, after.value = .map fields →
        after.annotations.temporary = before.annotations.temporary ∧
          ∃ fields, before.value = .map fields

/-- An expression that is left is reported. -/
theorem Node.keepsMark_expression {before node : Node} {e : Expr}
    (shape : node.value = .expression e) (temporary : node.annotations.temporary = true ∨
      node.annotations.state = false ∧ e.marksTemporary = true) : before.KeepsMark node := by
  obtain ⟨value, annotations, source⟩ := node
  obtain rfl : value = .expression e := shape
  exact .inr ⟨Node.isTemporary_iff.mpr temporary, rfl, by simp⟩

/-- A map whose directive is left is reported. -/
theorem Node.keepsMark_map {before : Node} {fields₀ fields : Fields Node}
    {annotations : Annotations} {source : String} {written : Node} {e : Expr}
    (shape₀ : before.value = .map fields₀)
    (same : annotations.temporary = before.annotations.temporary)
    (found : Fields.find? fields directiveKey = some written)
    (shape : written.value = .expression e)
    (temporary : annotations.temporary = true ∨
      annotations.state = false ∧ e.marksTemporary = true) :
    before.KeepsMark ⟨.map fields, annotations, source⟩ := by
  obtain ⟨value, noted, origin⟩ := written
  obtain rfl : value = .expression e := shape
  refine .inr ⟨?_, ?_, fun _ _ => ⟨same, fields₀, shape₀⟩⟩
  · rw [Node.isTemporary_iff, Node.marking?]
    simp only [found]
    exact temporary
  · rw [Node.isReported, Value.isReported, fieldsReported_eq_any, Bool.or_eq_true, List.any_eq_true]
    exact .inr ⟨_, Fields.mem_of_find? found, rfl⟩

/-! ### One pass over a temporary node -/

/-- An override keeps the flag of the node. -/
theorem temporary_of_stubOverride? {defaultKey : String} {node result : Node}
    (flagged : node.annotations.temporary = true)
    (given : stubOverride? defaultKey node b = some result) :
    result.annotations.temporary = true := by
  unfold stubOverride? at given
  split at given
  · cases given
  · obtain ⟨stub, -, rfl⟩ := Option.map_eq_some_iff.mp given
    simp [Node.overridden, Annotations.clearIssue, flagged]

theorem temporary_flowLeaf {node : Node} (flagged : node.annotations.temporary = true) :
    (flowLeaf engine node b overridable).annotations.temporary = true := by
  unfold flowLeaf
  split
  · cases given : stubOverride? engine.defaultKey node b with
    | none => exact flagged
    | some result => exact temporary_of_stubOverride? flagged given
  · exact flagged

/-- The override of an expression takes the flag from the text. -/
theorem temporary_of_expressionOverride? {defaultKey : String} {node result : Node} {e : Expr}
    (temporary : node.annotations.temporary = true ∨ e.marksTemporary = true)
    (given : expressionOverride? defaultKey node e b = some result) :
    result.annotations.temporary = true := by
  unfold expressionOverride? at given
  split at given
  · cases given
  · obtain ⟨stub, -, rfl⟩ := Option.map_eq_some_iff.mp given
    rcases temporary with flagged | marks
    · simp [Node.overridden, Annotations.clearIssue, flagged]
    · simp [Node.overridden, Annotations.clearIssue, Expr.temporary_staticInfo marks]

theorem keepsMark_of_flowExpression {before node result : Node} {e : Expr}
    (temporary : node.annotations.temporary = true ∨
      node.annotations.state = false ∧ e.marksTemporary = true)
    (flows : flowExpression engine deeper node e b overridable world =
      some (some result, world')) : before.KeepsMark result := by
  have annotated : ∀ a : Annotations, (node.annotations.temporary = true → a.temporary = true) →
      (e.staticInfo.annotate a).temporary = true := by
    intro a stays
    rcases temporary with flagged | ⟨-, marks⟩
    · simp [Info.annotate, stays flagged]
    · simp [Info.annotate, Expr.temporary_staticInfo marks]
  rw [flowExpression] at flows
  cases given : (if overridable then expressionOverride? engine.defaultKey node e b else none) with
  | some other =>
    rw [given] at flows
    cases flows
    split at given
    · exact .inl (temporary_of_expressionOverride? (temporary.imp_right And.right) given)
    · cases given
  | none =>
    rw [given] at flows
    cases held : expressionState? engine node e b with
    | some other =>
      simp only [held] at flows
      cases flows
      unfold expressionState? at held
      split at held
      · obtain ⟨state, -, rfl⟩ := Option.map_eq_some_iff.mp held
        exact .inl (annotated _ id)
      · cases held
    | none =>
      simp only [held] at flows
      obtain ⟨outcome, middle, yields, rest⟩ := Run.eq_of_bind flows
      cases outcome with
      | ok resolved =>
        obtain ⟨made, -⟩ := Prod.mk.inj (Option.some.inj rest)
        unfold resolvedNode at made
        split at made
        · cases made
        · cases made
          refine .inl (annotated _ fun flagged => ?_)
          simp [Info.annotate, Annotations.clearIssue, flagged]
      | error u =>
        cases rest
        exact Node.keepsMark_expression rfl temporary

theorem keepsMark_of_flowString {node result : Node} {text : String}
    (shape : node.value = .string text) (temporary : node.isTemporary = true)
    (flows : flowString engine deeper node text b overridable world = some (some result, world')) :
    node.KeepsMark result := by
  have marking : node.marking? = node.expr? := by rw [Node.marking?, shape]
  have flagged_of_unread : node.expr? = none → node.annotations.temporary = true := by
    intro unread
    rw [Node.isTemporary_iff, marking, unread] at temporary
    exact temporary.resolve_right fun marked => Bool.false_ne_true marked.2
  rw [flowString] at flows
  cases shown : Embedded.classify text with
  | literal =>
    rw [shown] at flows
    cases flows
    exact .inl (temporary_flowLeaf (flagged_of_unread (by simp only [Node.expr?, shape, shown])))
  | escaped literal =>
    rw [shown] at flows
    cases flows
    exact .inl (temporary_flowLeaf (flagged_of_unread (by simp only [Node.expr?, shape, shown])))
  | expression e =>
    rw [shown] at flows
    refine keepsMark_of_flowExpression ?_ flows
    have reads : node.expr? = some e := by simp only [Node.expr?, shape, shown]
    rw [Node.isTemporary_iff, marking, reads, Option.any_some] at temporary
    exact temporary
  | broken problem =>
    have flagged := flagged_of_unread (by simp only [Node.expr?, shape, shown])
    rw [shown] at flows
    cases given : (if overridable then stubOverride? engine.defaultKey node b else none) with
    | some other =>
      simp only [given] at flows
      cases flows
      split at given
      · exact .inl (temporary_of_stubOverride? flagged given)
      · cases given
    | none =>
      simp only [given] at flows
      cases flows
      exact .inl flagged

/-- The annotations of a list whose directive is carried out. -/
def SplicedList.noted : SplicedList → Annotations
  | .entries _ annotations => annotations
  | .value node => node.annotations

theorem temporary_spliceListDirective {node : Node} (flagged : node.annotations.temporary = true)
    (items : List Node) (position : Nat) (r : Resolved) :
    (spliceListDirective engine node items position r).noted.temporary = true := by
  have kept : (r.info.annotateContainer node.annotations.clearIssue).temporary = true := by
    simp [Info.annotateContainer, Info.annotate, Annotations.clearIssue, flagged]
  rw [spliceListDirective]
  cases r.directiveValue with
  | list added =>
    simp only
    split
    · exact kept
    · split <;> exact kept
  | _ => exact kept

theorem keepsMark_of_flowList {below : FlowBelow} {node result : Node} {items : List Node}
    (flagged : node.annotations.temporary = true)
    (flows : flowList engine deeper below node items b overridable world =
      some (some result, world')) : node.KeepsMark result := by
  obtain ⟨spliced, middle, directive, rest⟩ := Run.eq_of_bind flows
  have kept : spliced.noted.temporary = true := by
    rw [flowListDirective] at directive
    cases first : firstDirective? items with
    | some found =>
      simp only [first] at directive
      obtain ⟨outcome, last, -, made⟩ := Run.eq_of_bind directive
      cases outcome with
      | ok r =>
        cases made
        exact temporary_spliceListDirective flagged items found.1 r
      | error u =>
        cases made
        exact flagged
    | none =>
      simp only [first] at directive
      cases given : (if overridable && !node.annotations.expanded then
          stubOverride? engine.defaultKey node b else none) with
      | some other =>
        rw [given] at directive
        cases directive
        split at given
        · exact temporary_of_stubOverride? flagged given
        · cases given
      | none =>
        rw [given] at directive
        cases directive
        exact flagged
  cases spliced with
  | value other =>
    cases rest
    exact .inl kept
  | entries entries annotations =>
    obtain ⟨flowed, last, -, made⟩ := Run.eq_of_bind rest
    cases made
    exact .inl kept

/-- A pass copies the directive of a map. -/
theorem find?_flowFields_directive {below : FlowBelow} {fields flowed : Fields Node}
    {written : Node}
    (found : Fields.find? fields directiveKey = some written)
    (yields : flowFields below b overridable fields world = some (flowed, world')) :
    Fields.find? flowed directiveKey = some written := by
  induction fields generalizing flowed world with
  | nil => cases found
  | cons field rest ih =>
    obtain ⟨key, child⟩ := field
    obtain ⟨first, others, middle, start, later, rfl⟩ := flowFields_cons yields
    rw [Fields.find?_cons] at found
    split at found
    · next same =>
      cases found
      rw [if_pos same] at start
      cases start
      simp [Fields.find?_cons, same]
    · next differs =>
      cases first with
      | none => exact ih found later
      | some result =>
        simp only [Option.map_some, Option.toList_some, List.cons_append, List.nil_append]
        rw [Fields.find?_cons, if_neg differs]
        exact ih found later

/-- The annotations of a map whose directive is carried out. -/
def Spliced.noted : Spliced → Annotations
  | .fields _ annotations => annotations
  | .value node => node.annotations

theorem temporary_spliceDirective {node : Node} {r : Resolved}
    (temporary : node.annotations.temporary = true ∨ r.info.temporary = true)
    (fields : Fields Node) : (spliceDirective node fields r).noted.temporary = true := by
  have kept : (r.info.annotateContainer node.annotations.clearIssue).temporary = true := by
    rcases temporary with flagged | flagged <;>
      simp [Info.annotateContainer, Info.annotate, Annotations.clearIssue, flagged]
  rw [spliceDirective]
  cases r.directiveValue with
  | map spliced =>
    simp only
    split <;> exact kept
  | _ => exact kept

/-- A map that is flowed field by field keeps its flag, or gets it from its directive. -/
theorem keepsMark_of_flowPlainMap {below : FlowBelow} {node result : Node} {fields : Fields Node}
    {directive : Option (Node × Expr)} (shape : node.value = .map fields)
    (temporary : node.annotations.temporary = true ∨
      node.annotations.state = false ∧ directive.any (fun d => d.2.marksTemporary) = true)
    (flows : flowPlainMap engine deeper below node fields directive b overridable world =
      some (some result, world')) : node.KeepsMark result := by
  have flagged_of_none : directive = none → node.annotations.temporary = true := by
    rintro rfl
    exact temporary.resolve_right fun marked => Bool.false_ne_true marked.2
  rw [flowPlainMap] at flows
  cases held : mapState? engine node b with
  | some other =>
    rw [held] at flows
    cases flows
    unfold mapState? at held
    split at held
    · next asked =>
      obtain ⟨state, -, rfl⟩ := Option.map_eq_some_iff.mp held
      refine .inl (temporary.resolve_right fun marked => ?_)
      rw [asked] at marked
      cases marked.1
    · cases held
  | none =>
    simp only [held] at flows
    obtain ⟨spliced, middle, carried, rest⟩ := Run.eq_of_bind flows
    rcases directive with _ | ⟨written, e⟩
    · cases carried
      obtain ⟨flowed, last, -, made⟩ := Run.eq_of_bind rest
      cases made
      exact .inl (flagged_of_none rfl)
    · obtain ⟨outcome, inside, yields, done⟩ := Run.eq_of_bind carried
      cases outcome with
      | error u =>
        cases done
        obtain ⟨flowed, last, copied, made⟩ := Run.eq_of_bind rest
        cases made
        have left := find?_flowFields_directive
          (by rw [Fields.find?_insert, if_pos rfl]) copied
        exact Node.keepsMark_map shape rfl left rfl temporary
      | ok r =>
        cases done
        have kept := temporary_spliceDirective
          (temporary.imp_right fun marked => temporary_of_evaluate marked.2 yields) fields
        generalize spliceDirective node fields r = spliced at kept rest
        cases spliced with
        | value other =>
          cases rest
          exact .inl kept
        | fields fields annotations =>
          obtain ⟨flowed, last, -, made⟩ := Run.eq_of_bind rest
          cases made
          exact .inl kept

/-- A map without a control keeps its flag, or gets it from its directive. The override of the map
as a whole is to have the flag. -/
theorem keepsMark_of_flowMap {below : FlowBelow} {node result : Node} {fields : Fields Node}
    (shape : node.value = .map fields) (temporary : node.isTemporary = true)
    (noControl : controlNames fields = [])
    (kept : overridable = true → ∀ other, mapOverride? engine.defaultKey node b = some other →
      other.annotations.temporary = true)
    (flows : flowMap engine deeper below node fields b overridable world =
      some (some result, world')) : node.KeepsMark result := by
  have marking : node.marking? = (Fields.find? fields directiveKey).bind Node.expr? := by
    rw [Node.marking?, shape]
  have read : ((Fields.find? fields directiveKey).bind fun written =>
      written.expr?.map fun e => (written, e)).any (fun d => d.2.marksTemporary) =
      node.marking?.any Expr.marksTemporary := by
    rw [marking]
    cases Fields.find? fields directiveKey with
    | none => rfl
    | some written =>
      rw [Option.bind_some, Option.bind_some]
      cases written.expr? <;> rfl
  rw [Node.isTemporary_iff, ← read] at temporary
  rw [flowMap] at flows
  cases given : (if overridable then mapOverride? engine.defaultKey node b else none) with
  | some other =>
    rw [given] at flows
    cases flows
    split at given
    · next asked => exact .inl (kept asked _ given)
    · cases given
  | none =>
    simp only [given] at flows
    generalize ((Fields.find? fields directiveKey).bind fun written =>
      written.expr?.map fun e => (written, e)) = directive at temporary flows
    cases captured : directive.filter fun d => d.2.isTemplateDirective with
    | some found =>
      simp only [captured] at flows
      cases flows
      left
      obtain ⟨rfl, -⟩ := Option.filter_eq_some_iff.mp captured
      rcases temporary with flagged | ⟨-, marks⟩
      · simp [templateNode, Info.annotate, Annotations.clearIssue, flagged]
      · simp [templateNode, Info.annotate, Expr.temporary_staticInfo marks]
    | none =>
      simp only [captured, runControl, noControl] at flows
      exact keepsMark_of_flowPlainMap shape temporary flows

/-- A pass leaves a temporary node without a control flagged, or reported. The override of a map as
a whole is to have the flag. -/
theorem flowNode_of_isTemporary {fuel : Nat} {node result : Node}
    (temporary : node.isTemporary = true)
    (noControl : ∀ fields, node.value = .map fields → controlNames fields = [])
    (kept : overridable = true → ∀ fields, node.value = .map fields →
      ∀ other, mapOverride? engine.defaultKey node b = some other →
        other.annotations.temporary = true)
    (flows : flowNode engine deeper fuel node b overridable world = some (some result, world')) :
    node.KeepsMark result := by
  have flagged_of_unread : node.marking? = none → node.annotations.temporary = true := by
    intro unread
    rw [Node.isTemporary_iff, unread] at temporary
    exact temporary.resolve_right fun marked => Bool.false_ne_true marked.2
  cases fuel with
  | zero => cases flows
  | succ fuel =>
    rw [flowNode] at flows
    cases shape : node.value with
    | map fields =>
      rw [shape] at flows
      exact keepsMark_of_flowMap shape temporary (noControl fields shape)
        (fun asked => kept asked fields shape) flows
    | list items =>
      rw [shape] at flows
      refine keepsMark_of_flowList (flagged_of_unread ?_) flows
      rw [Node.marking?, shape, Node.expr?, shape]
    | expression e =>
      rw [shape] at flows
      refine keepsMark_of_flowExpression ?_ flows
      rw [Node.isTemporary_iff, Node.marking?, shape, Node.expr?, shape] at temporary
      exact temporary
    | string text =>
      rw [shape] at flows
      exact keepsMark_of_flowString shape temporary flows
    | _ =>
      rw [shape] at flows
      cases flows
      refine .inl (temporary_flowLeaf (flagged_of_unread ?_))
      rw [Node.marking?, shape, Node.expr?, shape]

end

/-! ### Paths of fields -/

/-- The node that a path of fields leads to. -/
def Node.fieldAt? (root : Node) (path : List String) : Option Node := path.foldlM Node.field? root

theorem Node.fieldAt?_cons {root : Node} {segment : String} {path : List String} :
    root.fieldAt? (segment :: path) = (root.field? segment).bind (·.fieldAt? path) := rfl

theorem Node.lookup?_map {defaultKey segment : String} {fields : Fields Node}
    {annotations : Annotations} {source : String} {path : List String} :
    (Node.mk (.map fields) annotations source).lookup? (segment :: path) defaultKey =
      (Fields.find? fields segment).bind (·.lookup? path defaultKey) := rfl

/-- A path of fields leads through maps without annotations, and without keys of directives and
controls, to a node with a property. -/
inductive Node.Reaches (Last : Node → Prop) : List String → Node → Prop
  | here {node : Node} (last : Last node) : Reaches Last [] node
  | field {segment : String} {rest : List String} {fields : Fields Node} {source : String}
      {child : Node} (ordinary : ∀ field ∈ fields, controlSuffix? field.1 = none)
      (sorted : fields.Sorted) (found : Fields.find? fields segment = some child)
      (below : child.Reaches Last rest) : Reaches Last (segment :: rest) ⟨.map fields, {}, source⟩

/-- If there is a node at a path of fields, it has a property. On the way are maps without
annotations, and without keys of directives and controls, or a stub value that is no map. -/
inductive Node.Leads (Last : Node → Prop) : List String → Node → Prop
  | here {node : Node} (last : Last node) : Leads Last [] node
  | field {segment : String} {rest : List String} {fields : Fields Node} {source : String}
      (ordinary : ∀ field ∈ fields, controlSuffix? field.1 = none)
      (sorted : fields.Sorted)
      (below : ∀ child, Fields.find? fields segment = some child → child.Leads Last rest) :
      Leads Last (segment :: rest) ⟨.map fields, {}, source⟩
  | shut {segment : String} {rest : List String} {node : Node}
      (notMap : ∀ fields, node.value ≠ .map fields) (unread : node.expr? = none)
      (merged : node.annotations.merged = true) : Leads Last (segment :: rest) node

theorem Node.Reaches.leads {Last : Node → Prop} {path : List String} {node : Node}
    (reaches : node.Reaches Last path) : node.Leads Last path := by
  induction reaches with
  | here last => exact .here last
  | field ordinary sorted found below ih =>
    refine .field ordinary sorted fun child known => ?_
    rw [found, Option.some.injEq] at known
    exact known ▸ ih

/-- The property may use that the node is at the path. -/
theorem Node.Reaches.imp {Last Last' : Node → Prop} {path : List String} {node : Node}
    (reaches : node.Reaches Last path)
    (weaker : ∀ last, node.fieldAt? path = some last → Last last → Last' last) :
    node.Reaches Last' path := by
  induction reaches with
  | here last => exact .here (weaker _ rfl last)
  | field ordinary sorted found below ih =>
    refine .field ordinary sorted found (ih fun last stands holds => weaker last ?_ holds)
    rw [Node.fieldAt?_cons, Node.field?_map, found, Option.bind_some, stands]

/-! ### Insertion -/

/-- The node is marked as temporary. With `mapped`, it may be a map without the flag. -/
def Node.IsDue (mapped : Bool) (node : Node) : Prop :=
  node.isTemporary = true ∧
    ∀ fields, node.value = .map fields → node.annotations.temporary = true ∨ mapped = true

theorem Node.isDue_of_flag {mapped : Bool} {node : Node}
    (flagged : node.annotations.temporary = true) : node.IsDue mapped :=
  ⟨Node.isTemporary_iff.mpr (.inl flagged), fun _ _ => .inl flagged⟩

theorem Node.KeepsMark.isDue {mapped : Bool} {before after : Node} (keeps : before.KeepsMark after)
    (due : before.IsDue mapped) : after.IsDue mapped := by
  rcases keeps with flagged | ⟨temporary, -, mapped⟩
  · exact Node.isDue_of_flag flagged
  · refine ⟨temporary, fun fields shape => ?_⟩
    obtain ⟨same, fields, shape⟩ := mapped fields shape
    rw [same]
    exact due.2 fields shape

section

variable {mapped : Bool} {defaultKey : String} {node value result : Node}

/-- Nothing is set below an expression. -/
theorem Node.insertAt?_of_expr {e : Expr} (read : node.expr? = some e) (path : List String) :
    node.insertAt? path value = none := by
  obtain ⟨content, annotations, source⟩ := node
  cases content with
  | string text => rcases path with _ | ⟨_, _ | _⟩ <;> rfl
  | expression e => rcases path with _ | ⟨_, _ | _⟩ <;> rfl
  | _ => cases read

/-- Setting a field below a map changes one of its fields. -/
theorem Node.insertAt?_map {fields : Fields Node} {annotations : Annotations} {source : String}
    {path : List String}
    (inserted : (Node.mk (.map fields) annotations source).insertAt? path value = some result) :
    ∃ segment rest new, path = segment :: rest ∧
      result = ⟨.map (Fields.insert segment new fields), annotations, source⟩ ∧
      (rest = [] ∧ new = value ∨
        ∃ child, Fields.find? fields segment = some child ∧
          child.insertAt? rest value = some new) := by
  rcases path with _ | ⟨segment, _ | ⟨next, rest⟩⟩
  · cases inserted
  · cases inserted
    exact ⟨segment, [], value, rfl, rfl, .inl ⟨rfl, rfl⟩⟩
  · obtain ⟨child, found, changed⟩ := Option.bind_eq_some_iff.mp inserted
    obtain ⟨new, made, done⟩ := Option.bind_eq_some_iff.mp changed
    cases done
    exact ⟨segment, next :: rest, new, rfl, rfl, .inr ⟨child, found, made⟩⟩

/-- Elsewhere a field can be set below a list only. -/
theorem Node.insertAt?_of_unmapped {path : List String}
    (notMap : ∀ fields, node.value ≠ .map fields)
    (inserted : node.insertAt? path value = some result) :
    ∃ items items', node.value = .list items ∧ result = node.withValue (.list items') := by
  obtain ⟨content, annotations, source⟩ := node
  cases content with
  | map fields => exact absurd rfl (notMap fields)
  | list items =>
    rcases path with _ | ⟨segment, _ | ⟨next, rest⟩⟩
    · cases inserted
    · cases inserted
    · obtain ⟨index, -, inserted⟩ := Option.bind_eq_some_iff.mp inserted
      obtain ⟨position, -, inserted⟩ := Option.bind_eq_some_iff.mp inserted
      obtain ⟨child, -, inserted⟩ := Option.bind_eq_some_iff.mp inserted
      obtain ⟨new, -, inserted⟩ := Option.bind_eq_some_iff.mp inserted
      cases inserted
      exact ⟨items, _, rfl, rfl⟩
  | _ => rcases path with _ | ⟨_, _ | _⟩ <;> cases inserted

/-- A field that is set leaves the mark on the node. -/
theorem Node.IsDue.insertAt? {path : List String} (due : node.IsDue mapped)
    (absent : node.lookup? path defaultKey = none)
    (inserted : node.insertAt? path value = some result) : result.IsDue mapped := by
  obtain ⟨temporary, whole⟩ := due
  rw [Node.isTemporary_iff] at temporary
  obtain ⟨content, annotations, source⟩ := node
  cases content with
  | map fields =>
    obtain ⟨segment, rest, new, rfl, rfl, changed⟩ := Node.insertAt?_map inserted
    refine ⟨Node.isTemporary_iff.mpr (temporary.imp_right fun marked => ⟨marked.1, ?_⟩),
      fun _ _ => whole fields rfl⟩
    obtain ⟨e, directive, marks⟩ := (Option.any_eq_true _ _).mp marked.2
    obtain ⟨written, found, read⟩ := Option.bind_eq_some_iff.mp directive
    have kept : Fields.find? (Fields.insert segment new fields) directiveKey = some written := by
      rw [Fields.find?_insert, if_neg, found]
      rintro rfl
      rcases changed with ⟨rfl, -⟩ | ⟨child, known, made⟩
      · rw [Node.lookup?_map, found] at absent
        cases absent
      · rw [found, Option.some.injEq] at known
        rw [← known, Node.insertAt?_of_expr read] at made
        cases made
    simp [Node.marking?, kept, read, marks]
  | list items =>
    obtain ⟨_, items', _, rfl⟩ := Node.insertAt?_of_unmapped (by simp) inserted
    refine ⟨Node.isTemporary_iff.mpr (temporary.imp_right fun marked => ?_), by simp [withValue]⟩
    cases marked.2
  | _ => rcases path with _ | ⟨_, _ | _⟩ <;> cases inserted

/-- A field that is set at an absent path leaves the way to the mark in the tree, unless it adds a
directive or a control to a map on the way. -/
theorem Node.Reaches.insertAt? {path place : List String}
    (reaches : node.Reaches (IsDue mapped) path) (absent : node.lookup? place defaultKey = none)
    (ordinary : ∀ before last next rest, place = before ++ [last] → path = before ++ next :: rest →
      controlSuffix? last = none)
    (inserted : node.insertAt? place value = some result) : result.Reaches (IsDue mapped) path := by
  induction reaches generalizing place result with
  | here due => exact .here (due.insertAt? absent inserted)
  | @field segment rest fields source child named sorted found below ih =>
    obtain ⟨first, others, new, rfl, rfl, changed⟩ := Node.insertAt?_map inserted
    have plain : ∀ field ∈ Fields.insert first new fields, controlSuffix? field.1 = none := by
      intro field member
      rcases Fields.mem_insert member with rfl | known
      · rcases changed with ⟨rfl, -⟩ | ⟨old, stood, -⟩
        · exact ordinary [] first segment rest rfl rfl
        · exact named (first, old) (Fields.mem_of_find? stood)
      · exact named field known
    have still := sorted.insert first new
    have descend : ∀ old, Fields.find? fields first = some old →
        old.lookup? others defaultKey = none := by
      intro old stood
      rw [Node.lookup?_map, stood] at absent
      exact absent
    by_cases same : first = segment
    · subst same
      rcases changed with ⟨rfl, -⟩ | ⟨old, stood, made⟩
      · cases descend child found
      · rw [found, Option.some.injEq] at stood
        subst stood
        refine .field plain still (by rw [Fields.find?_insert, if_pos rfl])
          (ih (descend child found) (fun before last next rest' place way => ?_) made)
        exact ordinary (first :: before) last next rest' (by rw [place]; rfl) (by rw [way]; rfl)
    · exact .field plain still (by rw [Fields.find?_insert, if_neg same, found]) below

end

/-- Where the path leads through the stub, the stub has no field for the template whose name is that
of a directive or a control. -/
def Node.addsPlainNames : List String → Node → Bool
  | [], _ => true
  | segment :: rest, ⟨.map fields, _, _⟩ =>
    fields.all fun field =>
      ((controlSuffix? field.1).isNone ||
        !(field.2.annotations.inject || field.2.annotations.default)) &&
      (field.1 != segment || field.2.addsPlainNames rest)
  | _, _ => true

section

variable {mapped : Bool} {defaultKey : String} {path : List String} {tree : Node}

/-- The fields that a stub adds leave the way to the mark in the tree. -/
theorem Node.Reaches.insertAbsent {stub : Node} {before : List String}
    (adds : ∀ rest, path = before ++ rest → stub.addsPlainNames rest = true)
    (reaches : tree.Reaches (IsDue mapped) path) :
    (insertAbsent defaultKey tree before stub).Reaches (IsDue mapped) path := by
  induction stub using Node.treeInduction generalizing before tree with
  | map fields annotations source ih =>
    rw [Cascade.insertAbsent]
    have part : ∀ rest, (∀ field ∈ rest, field ∈ fields) → ∀ tree,
        tree.Reaches (IsDue mapped) path →
        (insertAbsentFields defaultKey tree before rest).Reaches (IsDue mapped) path := by
      intro rest
      induction rest with
      | nil =>
        intro _ tree reaches
        rw [insertAbsentFields]
        exact reaches
      | cons field rest others =>
        intro known tree reaches
        have member := known field List.mem_cons_self
        have each : ∀ next onward, path = before ++ next :: onward →
            (controlSuffix? field.1 = none ∨
              (field.2.annotations.inject || field.2.annotations.default) = false) ∧
            (field.1 = next → field.2.addsPlainNames onward = true) := by
          intro next onward way
          have plain := adds _ way
          rw [Node.addsPlainNames, List.all_eq_true] at plain
          simpa [Decidable.imp_iff_not_or] using plain field member
        rw [insertAbsentFields]
        refine others (fun field member => known field (List.mem_cons_of_mem _ member)) _ ?_
        split
        · refine ih field member (fun onward way => ?_) reaches
          rw [List.append_assoc] at way
          exact (each field.1 onward way).2 rfl
        · next absent =>
          split
          · next flagged =>
            cases inserted : tree.insertAt? (before ++ [field.1]) field.2 with
            | none => exact reaches
            | some result =>
              refine reaches.insertAt? absent (fun first last next onward place way => ?_) inserted
              obtain ⟨rfl, same⟩ := List.append_inj' place rfl
              cases same
              refine (each next onward way).1.resolve_right ?_
              rw [flagged]
              exact Bool.noConfusion
          · exact reaches
    exact part fields (fun field member => member) tree reaches
  | list items annotations source ih =>
    rw [Cascade.insertAbsent]
    · exact reaches
    · simp
  | leaf value annotations source notList notMap =>
    rw [Cascade.insertAbsent]
    · exact reaches
    · rintro fields _ _ ⟨⟩
      exact notMap fields rfl

/-- What prepared stubs add leaves the way to the mark in the tree. -/
theorem Node.Reaches.injected {stubs : List Node}
    (adds : ∀ stub ∈ stubs, stub.addsPlainNames path = true)
    (reaches : tree.Reaches (IsDue mapped) path) :
    (injected defaultKey tree stubs).Reaches (IsDue mapped) path := by
  rw [Cascade.injected]
  induction stubs generalizing tree with
  | nil => exact reaches
  | cons stub rest ih =>
    rw [List.foldl_cons]
    refine ih (fun stub member => adds stub (List.mem_cons_of_mem _ member))
      (reaches.insertAbsent fun onward way => ?_)
    rw [← show path = onward from way]
    exact adds stub List.mem_cons_self

end

/-! ### Overrides on the way -/

/-- The first one of the values that stubs have at a place to override the node there. -/
def firstOverride? (values : List Node) : Option Node :=
  values.find? fun value => !value.annotations.default

/-- What stubs have on the way to a mark, and at it: no expression overrides a map on the way. With
`mapped`, only a temporary value overrides the marked node as a whole. -/
def letsPass (defaultKey : String) (mapped : Bool) : List Node → List String → Bool
  | values, [] =>
    !mapped || (firstOverride? values).all fun value => value.isMap || value.annotations.temporary
  | values, segment :: rest =>
    ((firstOverride? values).all fun value => value.expr?.isNone) &&
      letsPass defaultKey mapped (values.filterMap (·.step? segment defaultKey)) rest

section

variable {mapped : Bool} {defaultKey : String} {b : Binding}

theorem overrideValue?_eq_firstOverride? :
    b.overrideValue? defaultKey = firstOverride? (b.stubValues defaultKey) := rfl

/-- At the end of the way, a map is overridden as a whole by temporary values only. -/
theorem temporary_of_letsPass {value : Node}
    (lets : letsPass defaultKey mapped (b.stubValues defaultKey) [] = true) (asked : mapped = true)
    (known : b.overrideValue? defaultKey = some value) :
    value.isMap = true ∨ value.annotations.temporary = true := by
  rw [overrideValue?_eq_firstOverride?] at known
  rwa [letsPass, asked, known, Bool.not_true, Bool.false_or, Option.all_some,
    Bool.or_eq_true] at lets

/-- On the way, no expression overrides a map, and the same holds one step further. -/
theorem letsPass_cons {segment : String} {rest : List String} (aligned : b.IsAligned)
    (lets : letsPass defaultKey mapped (b.stubValues defaultKey) (segment :: rest) = true) :
    (∀ value, b.overrideValue? defaultKey = some value → value.expr? = none) ∧
      letsPass defaultKey mapped ((b.child segment).stubValues defaultKey) rest = true := by
  rw [letsPass, Bool.and_eq_true] at lets
  refine ⟨fun value known => ?_, ?_⟩
  · rw [overrideValue?_eq_firstOverride?] at known
    have unread := lets.1
    rwa [known, Option.all_some, Option.isNone_iff_eq_none] at unread
  · rw [Binding.stubValues_child aligned]
    exact lets.2

/-- A map is overridden as a whole by stub values that are no maps. -/
theorem exists_of_mapOverride? {node result : Node}
    (given : mapOverride? defaultKey node b = some result) :
    ∃ stub, b.overrideValue? defaultKey = some stub ∧ (∀ fields, stub.value ≠ .map fields) ∧
      result = node.overridden stub node.annotations.temporary := by
  unfold mapOverride? at given
  split at given
  · cases given
  · split at given
    · cases given
    · cases given
    · next stub notMap known =>
      cases given
      refine ⟨stub, known, fun fields shape => ?_, rfl⟩
      obtain ⟨value, annotations, source⟩ := stub
      obtain rfl : value = .map fields := shape
      exact notMap fields annotations source rfl

/-- The override of a map as a whole is temporary if the map is, or if the stub value is. -/
theorem temporary_of_mapOverride? {node result : Node}
    (temporary : node.annotations.temporary = true ∨
      ∀ value, b.overrideValue? defaultKey = some value →
        value.isMap = true ∨ value.annotations.temporary = true)
    (given : mapOverride? defaultKey node b = some result) :
    result.annotations.temporary = true := by
  obtain ⟨stub, known, notMap, rfl⟩ := exists_of_mapOverride? given
  rcases temporary with flagged | stubs
  · simp [Node.overridden, Annotations.clearIssue, flagged]
  · rcases stubs stub known with isMap | flagged
    · obtain ⟨fields, shape⟩ := Node.isMap_iff.mp isMap
      exact absurd shape (notMap fields)
    · simp [Node.overridden, Annotations.clearIssue, flagged]

/-- A stub value that overrides a map as a whole shuts the way. -/
theorem Node.Leads.of_mapOverride? {Last : Node → Prop} {node result : Node} {segment : String}
    {rest : List String}
    (unread : ∀ value, b.overrideValue? defaultKey = some value → value.expr? = none)
    (given : mapOverride? defaultKey node b = some result) :
    result.Leads Last (segment :: rest) := by
  obtain ⟨stub, known, notMap, rfl⟩ := exists_of_mapOverride? given
  exact .shut notMap (unread stub known) rfl

/-! ### Seeding -/

theorem find?_seedFields_directive (fields : Fields Node) :
    Fields.find? (seedFields defaultKey fields b) directiveKey =
      Fields.find? fields directiveKey := by
  induction fields with
  | nil => rw [seedFields]
  | cons field rest ih =>
    obtain ⟨key, child⟩ := field
    rw [seedFields, Fields.find?_cons, Fields.find?_cons, ih]
    by_cases same : key = directiveKey
    · simp [same]
    · simp [same]

/-- Seeding overrides a node that is no container as an expression, or as a whole. -/
theorem seedOverrides_of_no_container {node : Node} (notList : ∀ items, node.value ≠ .list items)
    (notMap : ∀ fields, node.value ≠ .map fields) :
    seedOverrides defaultKey node b =
      if node.annotations.blocksOverride then node
      else match node.expr? with
        | some e => (expressionOverride? defaultKey node e b).getD node
        | none => (stubOverride? defaultKey node b).getD node := by
  obtain ⟨value, annotations, source⟩ := node
  cases value with
  | map fields => exact absurd rfl (notMap fields)
  | list items => exact absurd rfl (notList items)
  | _ =>
    unfold seedOverrides
    rfl

/-- Seeding leaves the mark on a node. -/
theorem Node.IsDue.seedOverrides {node : Node} (due : node.IsDue mapped)
    (stubs : mapped = true → ∀ value, b.overrideValue? defaultKey = some value →
      value.isMap = true ∨ value.annotations.temporary = true) :
    (seedOverrides defaultKey node b).IsDue mapped := by
  obtain ⟨temporary, whole⟩ := id due
  by_cases isMap : ∃ fields, node.value = .map fields
  · obtain ⟨value, annotations, source⟩ := node
    obtain ⟨fields, rfl⟩ := isMap
    rw [Cascade.seedOverrides]
    split
    · exact due
    · cases given : mapOverride? defaultKey ⟨.map fields, annotations, source⟩ b with
      | some result =>
        exact isDue_of_flag (temporary_of_mapOverride? ((whole fields rfl).imp_right stubs) given)
      | none =>
        simp only
        split
        · exact due
        · refine ⟨?_, fun _ _ => whole fields rfl⟩
          rw [Node.isTemporary_iff, Node.marking?] at temporary ⊢
          simp only [find?_seedFields_directive]
          exact temporary
  have notMap : ∀ fields, node.value ≠ .map fields := fun fields shape => isMap ⟨fields, shape⟩
  rw [Node.isTemporary_iff, Node.marking?_of_unmapped notMap] at temporary
  have flagged_of_unread : node.expr? = none → node.annotations.temporary = true := by
    intro unread
    rw [unread] at temporary
    exact temporary.resolve_right fun marked => Bool.false_ne_true marked.2
  have stub_due : node.expr? = none → ∀ result, stubOverride? defaultKey node b = some result →
      result.IsDue mapped := fun unread result given =>
    isDue_of_flag (temporary_of_stubOverride? (flagged_of_unread unread) given)
  by_cases isList : ∃ items, node.value = .list items
  · obtain ⟨value, annotations, source⟩ := node
    obtain ⟨items, rfl⟩ := isList
    rw [Cascade.seedOverrides]
    split
    · exact due
    · split
      · exact due
      · cases given : stubOverride? defaultKey ⟨.list items, annotations, source⟩ b with
        | some result => exact stub_due rfl result given
        | none => exact isDue_of_flag (flagged_of_unread rfl)
  · rw [seedOverrides_of_no_container (fun items shape => isList ⟨items, shape⟩) notMap]
    split
    · exact due
    · cases read : node.expr? with
      | some e =>
        rw [read] at temporary
        simp only
        cases given : expressionOverride? defaultKey node e b with
        | some result =>
          exact isDue_of_flag
            (temporary_of_expressionOverride? (temporary.imp_right And.right) given)
        | none => simpa only [given, Option.getD_none] using due
      | none =>
        simp only
        cases given : stubOverride? defaultKey node b with
        | some result => exact stub_due read result given
        | none => simpa only [given, Option.getD_none] using due

/-- Seeding leaves the mark where the path leads to. -/
theorem Node.Reaches.seedOverrides {path : List String} {node : Node} (aligned : b.IsAligned)
    (lets : letsPass defaultKey mapped (b.stubValues defaultKey) path = true)
    (reaches : node.Reaches (IsDue mapped) path) :
    (seedOverrides defaultKey node b).Leads (IsDue mapped) path := by
  induction reaches generalizing b with
  | here due =>
    exact .here (due.seedOverrides fun asked value known => temporary_of_letsPass lets asked known)
  | @field segment rest fields source child ordinary sorted found below ih =>
    obtain ⟨unread, further⟩ := letsPass_cons aligned lets
    cases given : mapOverride? defaultKey ⟨.map fields, {}, source⟩ b with
    | some result =>
      rw [Cascade.seedOverrides, if_neg (by simp [Annotations.blocksOverride])]
      simp only [given]
      exact .of_mapOverride? unread given
    | none =>
      rw [seedOverrides_map_of_kept ordinary given]
      refine .field (fun field member => ?_) ?_ fun after stands => ?_
      · obtain ⟨before, known, rfl⟩ := List.mem_map.mp member
        exact ordinary before known
      · rw [Fields.Sorted, List.map_map]
        exact sorted
      · rw [Fields.find?_map fun key child => Cascade.seedOverrides defaultKey child (b.child key),
          found, Option.map_some] at stands
        cases stands
        exact ih (aligned.child segment) further

end

/-! ### Passes -/

section

variable {engine : Engine} {deeper : Deeper} {mapped : Bool} {b : Binding} {overridable : Bool}
  {world world' : World}

/-- A name of a flowed map is that of a field, which is flowed to the node under the name. -/
theorem exists_of_find?_flowFields {below : FlowBelow} {fields flowed : Fields Node} {key : String}
    {after : Node} (ordinary : key ≠ directiveKey) (sorted : fields.Sorted)
    (yields : flowFields below b overridable fields world = some (flowed, world'))
    (found : Fields.find? flowed key = some after) :
    ∃ child start last, Fields.find? fields key = some child ∧
      below child (b.child key) overridable start = some (some after, last) := by
  induction fields generalizing flowed world with
  | nil =>
    cases yields
    cases found
  | cons field rest ih =>
    obtain ⟨name, child⟩ := field
    obtain ⟨first, others, middle, start, later, rfl⟩ := flowFields_cons yields
    obtain ⟨before, tail⟩ := List.pairwise_cons.mp sorted
    rw [Fields.find?_cons]
    by_cases same : name = key
    · subst same
      rw [if_neg ordinary] at start
      have absent : Fields.find? others name = none := by
        rw [Fields.find?_eq_none_iff]
        intro field member
        obtain ⟨known, stood, named⟩ := mem_flowFields later field member
        rw [← named]
        exact (String.ne_of_lt (before _ (List.mem_map_of_mem stood))).symm
      cases first with
      | none =>
        rw [Option.map_none, Option.toList_none, List.nil_append, absent] at found
        cases found
      | some result =>
        simp only [Option.map_some, Option.toList_some, List.cons_append, List.nil_append,
          Fields.find?_cons, if_true, Option.some.injEq] at found
        subst found
        exact ⟨child, world, middle, by rw [if_pos rfl], start⟩
    · rw [if_neg same]
      refine ih tail later ?_
      cases first with
      | none => exact found
      | some result =>
        simpa only [Option.map_some, Option.toList_some, List.cons_append, List.nil_append,
          Fields.find?_cons, if_neg same] using found

theorem sublist_keys_flowFields {below : FlowBelow} {fields flowed : Fields Node}
    (yields : flowFields below b overridable fields world = some (flowed, world')) :
    (Fields.keys flowed).Sublist (Fields.keys fields) := by
  induction fields generalizing flowed world with
  | nil =>
    cases yields
    exact List.Sublist.refl _
  | cons field rest ih =>
    obtain ⟨key, child⟩ := field
    obtain ⟨first, others, middle, start, later, rfl⟩ := flowFields_cons yields
    cases first with
    | none => exact (ih later).cons key
    | some result => exact (ih later).cons_cons key

theorem stubOverride?_of_merged {defaultKey : String} {node : Node}
    (merged : node.annotations.merged = true) : stubOverride? defaultKey node b = none := by
  rw [stubOverride?, if_pos (by simp [Annotations.blocksOverride, merged])]

/-- A directive leaves a list a list, and what is taken from stubs taken from stubs. -/
theorem spliceListDirective_of_merged {node : Node} (merged : node.annotations.merged = true)
    (items : List Node) (position : Nat) (r : Resolved) :
    (spliceListDirective engine node items position r).noted.merged = true ∧
      ∀ other, spliceListDirective engine node items position r = .value other →
        ∃ items, other.value = .list items := by
  rw [spliceListDirective]
  cases r.directiveValue with
  | list added =>
    simp only
    split
    · exact ⟨rfl, by simp⟩
    · split
      · exact ⟨merged, by simp⟩
      · exact ⟨merged, by simp⟩
  | nil => exact ⟨merged, by simp⟩
  | _ => exact ⟨merged, by rintro _ ⟨⟩; exact ⟨_, rfl⟩⟩

/-- The same of a list whose directive did not resolve, or that has none: no stub overrides it. -/
theorem flowListDirective_of_merged {node : Node} {items : List Node} {spliced : SplicedList}
    (merged : node.annotations.merged = true)
    (yields : flowListDirective engine deeper node items b overridable world =
      some (spliced, world')) :
    spliced.noted.merged = true ∧
      ∀ other, spliced = .value other → ∃ items, other.value = .list items := by
  rw [flowListDirective] at yields
  cases first : firstDirective? items with
  | some found =>
    simp only [first] at yields
    obtain ⟨outcome, last, -, made⟩ := Run.eq_of_bind yields
    cases outcome with
    | ok r =>
      cases made
      exact spliceListDirective_of_merged merged items found.1 r
    | error u =>
      cases made
      exact ⟨merged, by simp⟩
  | none =>
    simp only [first, stubOverride?_of_merged merged, ite_self] at yields
    cases yields
    exact ⟨merged, by simp⟩

/-- A pass leaves a stub value that is neither a map nor an expression what it is. -/
theorem flowNode_of_shut {fuel : Nat} {node : Node} {result : Option Node}
    (notMap : ∀ fields, node.value ≠ .map fields) (unread : node.expr? = none)
    (merged : node.annotations.merged = true)
    (flows : flowNode engine deeper fuel node b overridable world = some (result, world')) :
    ∃ after, result = some after ∧ (∀ fields, after.value ≠ .map fields) ∧ after.expr? = none ∧
      after.annotations.merged = true := by
  have kept : (if overridable then stubOverride? engine.defaultKey node b else none) = none := by
    rw [stubOverride?_of_merged merged, ite_self]
  have leaf : flowLeaf engine node b overridable = node := by
    rw [flowLeaf, kept, Option.getD_none]
  cases fuel with
  | zero => cases flows
  | succ fuel =>
    rw [flowNode] at flows
    cases shape : node.value with
    | map fields => exact absurd shape (notMap fields)
    | expression e =>
      rw [Node.expr?, shape] at unread
      cases unread
    | list items =>
      rw [shape] at flows
      obtain ⟨spliced, middle, directive, rest⟩ := Run.eq_of_bind flows
      obtain ⟨taken, listed⟩ := flowListDirective_of_merged merged directive
      cases spliced with
      | value other =>
        cases rest
        obtain ⟨items, listed⟩ := listed _ rfl
        refine ⟨_, rfl, fun fields mapped => ?_, ?_, taken⟩
        · rw [listed] at mapped
          cases mapped
        · rw [Node.expr?, listed]
      | entries entries annotations =>
        obtain ⟨flowed, last, -, made⟩ := Run.eq_of_bind rest
        cases made
        exact ⟨_, rfl, by simp, rfl, taken⟩
    | string text =>
      rw [shape] at flows
      simp only [flowString] at flows
      cases shown : Embedded.classify text with
      | expression e =>
        simp only [Node.expr?, shape, shown] at unread
        cases unread
      | broken problem =>
        simp only [shown, kept] at flows
        cases flows
        refine ⟨_, rfl, notMap, ?_, merged⟩
        simp only [Node.expr?, shape, shown]
      | _ =>
        simp only [shown, leaf] at flows
        cases flows
        exact ⟨_, rfl, notMap, unread, merged⟩
    | _ =>
      simp only [shape, leaf] at flows
      cases flows
      exact ⟨_, rfl, notMap, unread, merged⟩

/-- After a pass, a node that is marked as temporary is flagged, or a report lists it. -/
def Node.IsSettledDue (mapped : Bool) (node : Node) : Prop :=
  node.IsDue mapped ∧ (node.annotations.temporary = true ∨ node.isReported = true)

/-- The node at a path of fields is no map with a control. -/
def Node.lacksControlAt (root : Node) (path : List String) : Bool :=
  (root.fieldAt? path).all fun node =>
    match node.value with
    | .map fields => (controlNames fields).isEmpty
    | _ => true

/-- A pass leaves the mark where the path leads to, unless a control is there. Only the node at the
end of a path can be removed. -/
theorem Node.Leads.flowNode {path : List String} {fuel : Nat} {node : Node} {result : Option Node}
    (aligned : b.IsAligned)
    (lets : letsPass engine.defaultKey mapped (b.stubValues engine.defaultKey) path = true)
    (leads : node.Leads (IsDue mapped) path) (calm : node.lacksControlAt path = true)
    (flows : flowNode engine deeper fuel node b overridable world = some (result, world')) :
    (path = [] ∧ result = none) ∨
      ∃ after, result = some after ∧ after.Leads (IsSettledDue mapped) path := by
  induction leads generalizing b fuel overridable result world world' with
  | @here node due =>
    cases result with
    | none => exact .inl ⟨rfl, rfl⟩
    | some after =>
      have stubs : ∀ fields, node.value = .map fields → node.annotations.temporary = true ∨
          ∀ value, b.overrideValue? engine.defaultKey = some value →
            value.isMap = true ∨ value.annotations.temporary = true := by
        intro fields shape
        exact (due.2 fields shape).imp_right fun asked value known =>
          temporary_of_letsPass lets asked known
      have keeps : node.KeepsMark after := by
        refine flowNode_of_isTemporary due.1 (fun fields shape => ?_)
          (fun _ fields shape other => ?_) flows
        · have lacks : (match node.value with
              | .map fields => (controlNames fields).isEmpty
              | _ => true) = true := calm
          rw [shape] at lacks
          exact List.isEmpty_iff.mp lacks
        · exact temporary_of_mapOverride? (stubs fields shape)
      exact .inr ⟨after, rfl, .here ⟨keeps.isDue due, keeps.imp_right fun marked => marked.2.1⟩⟩
  | @field segment rest fields source ordinary sorted below ih =>
    right
    obtain ⟨unread, further⟩ := letsPass_cons aligned lets
    cases fuel with
    | zero => cases flows
    | succ fuel =>
      rw [Cascade.flowNode] at flows
      cases given : (if overridable then mapOverride? engine.defaultKey ⟨.map fields, {}, source⟩ b
          else none) with
      | some other =>
        simp only [flowMap, given] at flows
        cases flows
        refine ⟨other, rfl, ?_⟩
        split at given
        · exact .of_mapOverride? unread given
        · cases given
      | none =>
        simp only [flowMap_eq_bind ordinary rfl given] at flows
        obtain ⟨flowed, middle, fieldwise, done⟩ := Run.eq_of_bind flows
        cases done
        refine ⟨_, rfl, .field (fun field member => ?_) ?_ fun after found => ?_⟩
        · obtain ⟨before, known, same⟩ := mem_flowFields fieldwise field member
          rw [← same]
          exact ordinary before known
        · exact sorted.sublist (sublist_keys_flowFields fieldwise)
        · obtain ⟨before, known, rfl⟩ : ∃ before ∈ fields, before.1 = segment :=
            mem_flowFields fieldwise _ (Fields.mem_of_find? found)
          obtain ⟨child, start, last, stood, flow⟩ :=
            exists_of_find?_flowFields (ne_directiveKey (ordinary before known)) sorted fieldwise
              found
          rw [Node.lacksControlAt, Node.fieldAt?_cons, Node.field?_map, stood] at calm
          rcases ih child stood (aligned.child before.1) further calm flow with
            ⟨-, removed⟩ | ⟨again, same, holds⟩
          · cases removed
          · cases same
            exact holds
  | shut notMap unread merged =>
    obtain ⟨after, rfl, notMap, unread, merged⟩ := flowNode_of_shut notMap unread merged flows
    exact .inr ⟨after, rfl, .shut notMap unread merged⟩

end

/-! ### Runs -/

theorem Node.Leads.imp {Last Last' : Node → Prop} {path : List String} {node : Node}
    (leads : node.Leads Last path) (weaker : ∀ last, Last last → Last' last) :
    node.Leads Last' path := by
  induction leads with
  | here last => exact .here (weaker _ last)
  | field ordinary sorted below ih => exact .field ordinary sorted ih
  | shut notMap unread merged => exact .shut notMap unread merged

/-- In no snapshot that a run passes over is a control at the path. -/
def uncontrolledWithin (engine : Engine) (deeper : Deeper) (s : Setting) (path : List String) :
    (passes : Nat) → Node → World → Bool
  | 0, _, _ => true
  | passes + 1, root, world =>
    root.lacksControlAt path &&
      match pass engine deeper s root world with
      | none => true
      | some (next, middle) =>
        next.same root || uncontrolledWithin engine deeper s path passes next middle

section

variable {engine : Engine} {deeper : Deeper} {s : Setting} {mapped : Bool} {path : List String}

/-- One pass over a document leaves the mark where the path leads to. -/
theorem Node.Leads.pass {root next : Node} {world world' : World}
    (lets : letsPass engine.defaultKey mapped s.stubs path = true)
    (leads : root.Leads (IsDue mapped) path)
    (calm : root.lacksControlAt path = true)
    (yields : pass engine deeper s root world = some (next, world')) (below : path ≠ []) :
    next.Leads (IsSettledDue mapped) path := by
  obtain ⟨result, middle, flows, done⟩ := Run.eq_of_bind yields
  cases done
  have lower : letsPass engine.defaultKey mapped
      ((s.rootBinding root).stubValues engine.defaultKey) path = true := by
    rwa [stubValues_rootBinding]
  rcases leads.flowNode isAligned_rootBinding lower calm flows with ⟨top, -⟩ | ⟨after, rfl, holds⟩
  · exact absurd top below
  · exact holds

/-- The tree that a run settles on has the mark where the path leads to. -/
theorem Node.Leads.settleWithin {passes : Nat} {root settled : Node} {world world' : World}
    (lets : letsPass engine.defaultKey mapped s.stubs path = true)
    (leads : root.Leads (IsDue mapped) path)
    (below : path ≠ [])
    (calm : uncontrolledWithin engine deeper s path passes root world = true)
    (yields : settleWithin engine deeper s passes root world = some (some settled, world')) :
    settled.Leads (IsSettledDue mapped) path := by
  induction passes generalizing root world with
  | zero => cases yields
  | succ passes ih =>
    rw [Cascade.settleWithin] at yields
    obtain ⟨next, middle, flows, rest⟩ := Run.eq_of_bind yields
    rw [uncontrolledWithin, flows, Bool.and_eq_true, Bool.or_eq_true] at calm
    have holds := leads.pass lets calm.1 flows below
    split at rest
    · cases rest
      exact holds
    · next changed =>
      exact ih (holds.imp fun _ due => due.1) (calm.2.resolve_left changed) rest

/-! ### Outcomes -/

/-- What is flagged as temporary at the end of a path is not in the final document. -/
theorem Node.Leads.fieldAt?_eq_none {node stripped : Node}
    (leads : node.Leads (IsSettledDue mapped) path) (unreported : node.isReported = false)
    (left : node.strip? true = some stripped) :
    stripped.unescape.fieldAt? path = none := by
  induction leads generalizing stripped with
  | @here node due =>
    have flagged := due.2.resolve_right (by rw [unreported]; exact Bool.false_ne_true)
    obtain ⟨value, annotations, source⟩ := node
    rw [Node.strip?, if_pos (by simp [show annotations.temporary = true from flagged])] at left
    cases left
  | @field segment rest fields source ordinary sorted below ih =>
    rw [Node.strip?, if_neg (by simp), Option.some.injEq] at left
    subst left
    have inside : fieldsReported fields = false := by
      rw [Node.isReported, Bool.or_eq_false_iff] at unreported
      exact unreported.2
    rw [Node.unescape, Value.strip, Value.unescape, unescapeFields_eq_map, stripFields_eq_filterMap,
      Node.fieldAt?_cons, Node.field?_map, Fields.find?_map fun _ => Node.unescape,
      Option.bind_eq_none_iff]
    intro last known
    obtain ⟨kept, found, rfl⟩ := Option.map_eq_some_iff.mp known
    obtain ⟨field, member, stays⟩ := List.mem_filterMap.mp (Fields.mem_of_find? found)
    obtain ⟨child, shown, same⟩ := Option.map_eq_some_iff.mp stays
    obtain ⟨rfl, rfl⟩ := Prod.mk.inj same
    have stood := Fields.find?_of_mem sorted.distinct member
    refine ih field.2 stood ?_ shown
    rw [fieldsReported_eq_any, List.any_eq_false] at inside
    exact Bool.eq_false_iff.mpr (inside field member)
  | @shut segment rest node notMap unread merged =>
    have unmapped : stripped.unescape.field? segment = none := by
      obtain ⟨value, annotations, source⟩ := node
      rw [Node.strip?] at left
      split at left
      · cases left
      · cases left
        cases value with
        | map fields => exact absurd rfl (notMap fields)
        | string text =>
          rw [Node.unescape, Value.strip, Value.unescape]
          · split <;> rfl
          all_goals simp
        | _ => rfl
    rw [Node.fieldAt?_cons, unmapped, Option.bind_none]

end

/-- Temporary fields are not in the document. If a cascade succeeds with nothing unresolved, a field
that the template marks as temporary, by the markers of its expression or of its directive, is not
in the document, whatever stubs have at its path, above it and below it. A field that is marked by a
directive is not to be overridden as a whole, unless by a temporary value. No control is to replace
the field, and no stub is to add a directive or a control to the maps around it. -/
theorem cascade_temporaryField (engine : Engine) (template : Node) (stubs : List Node)
    (state : Option Node) (world world' later : World) (prepared : Prepared) (outcome : Outcome)
    (ready : (engine.prepared stubs).run world = some (.ok prepared, later))
    (succeeds : (engine.cascade template stubs state).run world = some (.ok outcome, world'))
    (complete : outcome.unresolved = none) (path : List String) (below : path ≠ [])
    (marked : template.Reaches (fun node => node.isTemporary = true) path)
    (adds : ∀ stub ∈ prepared.stubs, stub.addsPlainNames path = true)
    (lets : letsPass engine.defaultKey ((template.fieldAt? path).any Node.isMap) prepared.stubs
      path = true)
    (calm : uncontrolledWithin engine (engine.below 0)
      (cascadeSetting ⟨later.documents, []⟩ prepared.stubs state) path engine.maxPasses
      ((cascadeSetting ⟨later.documents, []⟩ prepared.stubs state).seeded engine
        (injected engine.defaultKey template prepared.stubs))
      { later with documents := later.documents + 1 } = true) :
    outcome.document.fieldAt? path = none := by
  obtain ⟨prepared', later', ready', applied⟩ := Flow.eq_of_bind succeeds
  cases ready.symm.trans ready'
  obtain ⟨tree, settles, made⟩ := settle_of_applyPrepared applied
  obtain ⟨document, unresolved⟩ := Engine.eq_of_outcomeOfTree made
  have due : template.Reaches (Node.IsDue ((template.fieldAt? path).any Node.isMap)) path := by
    refine marked.imp fun last stands temporary => ⟨temporary, fun fields shape => .inr ?_⟩
    rw [stands, Option.any_some, Node.isMap_iff.mpr ⟨fields, shape⟩]
  have grown : (injected engine.defaultKey template prepared.stubs).Reaches _ path :=
    due.injected adds
  have begun := grown.seedOverrides (b := (cascadeSetting ⟨later.documents, []⟩ prepared.stubs
    state).rootBinding (injected engine.defaultKey template prepared.stubs)) isAligned_rootBinding
    (by rwa [stubValues_rootBinding])
  have holds := Node.Leads.settleWithin lets begun below calm settles
  have empty : (Report.collect tree engine.defaultKey).isEmpty = true := by
    rw [unresolved] at complete
    split at complete
    · next empty => exact isEmpty_of_absorb empty
    · cases complete
  obtain ⟨segment, rest, rfl⟩ := List.exists_cons_of_ne_nil below
  rw [document, finalDocument]
  cases left : tree.strip? true with
  | none => rfl
  | some stripped => exact holds.fieldAt?_eq_none (isEmpty_collect_iff.mp empty) left

/-- A template with a temporary field, and one that refers to it. -/
def secretTemplate : Node :=
  .ofJson "template" (.object [
    ("b", .object [("y", .string "(( &temporary 2 ))")]), ("c", .string "(( b.y ))")])

/-- A stub with another value for the temporary field. -/
def secretStub : Node :=
  .ofJson "stub" (.object [("b", .object [("y", .int 7)])])

/-- The number at a path of fields in the document of a cascade that leaves nothing unresolved. -/
def shownNumber (engine : Engine) (template : Node) (stubs : List Node) (path : List String) :
    Option Int64 := do
  let (answer, _) ← (engine.cascade template stubs none).run {}
  let outcome ← answer.toOption
  let number ← (outcome.document.fieldAt? path).bind (·.value.asInt?)
  if outcome.unresolved.isNone then some number else none

theorem exists_of_shownNumber {engine : Engine} {template : Node} {stubs : List Node}
    {path : List String} {number : Int64}
    (shown : shownNumber engine template stubs path = some number) :
    ∃ outcome world', (engine.cascade template stubs none).run {} = some (.ok outcome, world') ∧
      outcome.unresolved = none ∧
      (outcome.document.fieldAt? path).bind (·.value.asInt?) = some number := by
  obtain ⟨⟨answer, world'⟩, ran, rest⟩ := Option.bind_eq_some_iff.mp shown
  obtain ⟨outcome, succeeded, rest⟩ := Option.bind_eq_some_iff.mp rest
  obtain ⟨known, stands, rest⟩ := Option.bind_eq_some_iff.mp rest
  obtain ⟨complete, same⟩ := Option.ite_none_right_eq_some.mp rest
  cases same
  cases answer with
  | error failure => cases succeeded
  | ok made =>
    obtain rfl : made = outcome := Option.some.inj succeeded
    exact ⟨made, world', ran, Option.isNone_iff_eq_none.mp complete, stands⟩

/-- Nothing in the prepared stubs hinders the mark at a path, and no control comes upon it. -/
def markStands (engine : Engine) (template : Node) (stubs : List Node) (path : List String) :
    Bool :=
  match (engine.prepared stubs).run {} with
  | some (.ok prepared, later) =>
    let s := cascadeSetting ⟨later.documents, []⟩ prepared.stubs none
    prepared.stubs.all (·.addsPlainNames path) &&
      letsPass engine.defaultKey ((template.fieldAt? path).any Node.isMap) prepared.stubs path &&
      uncontrolledWithin engine (engine.below 0) s path engine.maxPasses
        (s.seeded engine (injected engine.defaultKey template prepared.stubs))
        { later with documents := later.documents + 1 }
  | _ => false

theorem exists_of_markStands {engine : Engine} {template : Node} {stubs : List Node}
    {path : List String} (stands : markStands engine template stubs path = true) :
    ∃ prepared later, (engine.prepared stubs).run {} = some (.ok prepared, later) ∧
      (∀ stub ∈ prepared.stubs, stub.addsPlainNames path = true) ∧
      letsPass engine.defaultKey ((template.fieldAt? path).any Node.isMap) prepared.stubs path =
        true ∧
      uncontrolledWithin engine (engine.below 0)
        (cascadeSetting ⟨later.documents, []⟩ prepared.stubs none) path engine.maxPasses
        ((cascadeSetting ⟨later.documents, []⟩ prepared.stubs none).seeded engine
          (injected engine.defaultKey template prepared.stubs))
        { later with documents := later.documents + 1 } = true := by
  unfold markStands at stands
  split at stands
  · next prepared later ready =>
    simp only [Bool.and_eq_true, List.all_eq_true] at stands
    exact ⟨prepared, later, ready, stands.1.1, stands.1.2, stands.2⟩
  · cases stands

theorem cascade_secretTemplate : ∃ outcome world',
    (Engine.standard.cascade secretTemplate [secretStub] none).run {} = some (.ok outcome, world') ∧
    (outcome.document.fieldAt? ["c"]).bind (·.value.asInt?) = some 7 ∧
    outcome.document.fieldAt? ["b", "y"] = none := by
  have marked : secretTemplate.Reaches (fun node => node.isTemporary = true) ["b", "y"] := by
    refine .field (by decide) (by decide) rfl (.field (by decide) (by decide) rfl (.here ?_))
    decide +kernel
  obtain ⟨outcome, world', succeeds, complete, shown⟩ := exists_of_shownNumber
    (show shownNumber Engine.standard secretTemplate [secretStub] ["c"] = some 7 by decide +kernel)
  obtain ⟨prepared, later, ready, adds, lets, calm⟩ := exists_of_markStands
    (show markStands Engine.standard secretTemplate [secretStub] ["b", "y"] = true by
      decide +kernel)
  exact ⟨outcome, world', succeeds, shown,
    cascade_temporaryField Engine.standard secretTemplate [secretStub] none {} world' later prepared
      outcome ready succeeds complete ["b", "y"] (by decide) marked adds lets calm⟩

/-- A template with a temporary map. -/
def hiddenMap : Node :=
  .ofJson "template" (.object [
    ("a", .object [("<<", .string "(( &temporary ))"), ("x", .int 1)])])

/-- A stub with a number in place of the map. -/
def numberStub : Node :=
  .ofJson "stub" (.object [("a", .int 5)])

/-- A template with a temporary field whose value carries a control. -/
def controlledField : Node :=
  .ofJson "template" (.object [("t", .string "(( &temporary x ))"),
    ("x", .object [("<<if", .bool true), ("<<then", .int 5)])])

/-- A number in place of a map that is marked by its directive, and what a control puts in place of
a temporary value, are in the document. -/
theorem cascade_hiddenMap :
    (hiddenMap.Reaches (fun node => node.isTemporary = true) ["a"] ∧ ∃ outcome world',
      (Engine.standard.cascade hiddenMap [numberStub] none).run {} = some (.ok outcome, world') ∧
      outcome.unresolved = none ∧
      (outcome.document.fieldAt? ["a"]).bind (·.value.asInt?) = some 5) ∧
    (controlledField.Reaches (fun node => node.isTemporary = true) ["t"] ∧ ∃ outcome world',
      (Engine.standard.cascade controlledField [] none).run {} = some (.ok outcome, world') ∧
      outcome.unresolved = none ∧
      (outcome.document.fieldAt? ["t"]).bind (·.value.asInt?) = some 5) := by
  refine ⟨⟨.field (by decide) (by decide) rfl (.here (by decide +kernel)), ?_⟩,
    .field (by decide) (by decide) rfl (.here (by decide +kernel)), ?_⟩
  · exact exists_of_shownNumber (by decide +kernel)
  · exact exists_of_shownNumber (by decide +kernel)

end Cascade
