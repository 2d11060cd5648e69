import Cascade.Proofs.PlainData

/-!
# What a pass does to a container

A container that no control and no directive reshapes, and that no stub overrides, keeps its shape in
a pass: its children are flowed at their places.

## Main definitions

* `Binding.inside`: where the fields of a map are flowed.

## Main statements

* `flowMap_of_still`, `flowList_of_still`: what the pass makes of such a container.
* `flowMap_of_closed`: a map whose directive merges without moving stub paths keeps its own fields.
-/

namespace Cascade

/-! ### Computations that return -/

theorem Run.eq_of_bind {α β : Type} {r : Run α} {next : α → Run β} {world world' : World} {b : β}
    (yields : (r >>= next) world = some (b, world')) :
    ∃ a middle, r world = some (a, middle) ∧ next a middle = some (b, world') := by
  change (r world).bind _ = _ at yields
  obtain ⟨⟨a, middle⟩, first, rest⟩ := Option.bind_eq_some_iff.mp yields
  exact ⟨a, middle, first, rest⟩

theorem Run.eq_of_pure {α : Type} {a b : α} {world world' : World}
    (yields : (pure a : Run α) world = some (b, world')) : a = b := by
  cases yields
  rfl

theorem Eval.eq_of_bind {α β : Type} {x : Eval α} {next : α → Eval β} {world world' : World} {b : β}
    (yields : (x >>= next).run world = some (.ok b, world')) :
    ∃ a middle, x.run world = some (.ok a, middle) ∧ (next a).run middle = some (.ok b, world') := by
  obtain ⟨outcome, middle, first, rest⟩ := Run.eq_of_bind yields
  cases outcome with
  | ok a => exact ⟨a, middle, first, rest⟩
  | error u => cases rest

section

variable {α β : Type} {x : Eval α} {next : α → Eval β} {world world' : World}

theorem Eval.bind_of_ok {a : α} (yields : x.run world = some (.ok a, world')) :
    (x >>= next).run world = (next a).run world' := by
  change (x.run world).bind _ = _
  rw [yields]
  rfl

theorem Eval.bind_of_error {u : Unresolved} (fails : x.run world = some (.error u, world')) :
    (x >>= next).run world = some (.error u, world') := by
  change (x.run world).bind _ = _
  rw [fails]
  rfl

end

/-! ### Children -/

/-- Where the fields of a map are flowed: a map may redirect the stub paths below it. -/
def Binding.inside (b : Binding) (a : Annotations) : Binding :=
  match a.redirectPath with
  | some path => b.redirected path
  | none => b

theorem Binding.document_inside (b : Binding) (a : Annotations) :
    (b.inside a).document = b.document := by
  rw [Binding.inside]
  split <;> rfl

section

variable {engine : Engine} {deeper : Deeper} {below : FlowBelow} {b : Binding} {overridable : Bool}
  {world world' : World}

/-- The flowed fields of a map: those of the first field, if it stays, and those of the others. -/
theorem flowFields_cons {key : String} {child : Node} {rest flowed : Fields Node}
    (yields : flowFields below b overridable ((key, child) :: rest) world =
      some (flowed, world')) :
    ∃ first others middle,
      (if key = directiveKey then pure (some child) else below child (b.child key) overridable)
        world = some (first, middle) ∧
      flowFields below b overridable rest middle = some (others, world') ∧
      flowed = (first.map fun child => (key, child)).toList ++ others := by
  rw [flowFields] at yields
  split at yields
  · next directive =>
    rw [pure_bind] at yields
    obtain ⟨others, middle, later, done⟩ := Run.eq_of_bind yields
    cases done
    exact ⟨some child, others, world, by rw [if_pos directive]; rfl, later, rfl⟩
  · next ordinary =>
    obtain ⟨first, middle, start, rest⟩ := Run.eq_of_bind yields
    obtain ⟨others, last, later, done⟩ := Run.eq_of_bind rest
    cases done
    exact ⟨first, others, middle, by rw [if_neg ordinary]; exact start, later, rfl⟩

/-- The keys of a flowed map are keys of the map. -/
theorem mem_flowFields {fields flowed : Fields Node}
    (yields : flowFields below b overridable fields world = some (flowed, world')) :
    ∀ field ∈ flowed, ∃ before ∈ fields, before.1 = field.1 := by
  induction fields generalizing flowed world with
  | nil =>
    cases yields
    intro field member
    cases member
  | cons field rest ih =>
    obtain ⟨key, child⟩ := field
    obtain ⟨first, others, middle, -, later, rfl⟩ := flowFields_cons yields
    intro field member
    rcases List.mem_append.mp member with here | there
    · obtain ⟨kept, -, rfl⟩ := Option.map_eq_some_iff.mp (Option.mem_toList.mp here)
      exact ⟨(key, child), List.mem_cons_self, rfl⟩
    · obtain ⟨before, known, same⟩ := ih later field there
      exact ⟨before, List.mem_cons_of_mem _ known, same⟩

/-- The flowed entries of a list without directives: that of the first entry, if it stays, and those
of the others. -/
theorem flowEntries_cons {key : String} {index : Nat} {entry : Node} {rest flowed : List Node}
    (plain : entry.listDirective? = none)
    (yields : flowEntries below key b overridable index (entry :: rest) world =
      some (flowed, world')) :
    ∃ first others middle,
      below entry (b.entry (entry.entrySegment index key) key) overridable world =
        some (first, middle) ∧
      flowEntries below key b overridable (index + 1) rest middle = some (others, world') ∧
      flowed = first.toList ++ others := by
  rw [flowEntries, plain, if_neg (by simp)] at yields
  obtain ⟨first, middle, start, rest⟩ := Run.eq_of_bind yields
  obtain ⟨others, last, later, done⟩ := Run.eq_of_bind rest
  cases done
  exact ⟨first, others, middle, start, later, rfl⟩

theorem length_flowEntries {key : String} {index : Nat} {items flowed : List Node}
    (plain : ∀ item ∈ items, item.listDirective? = none)
    (yields : flowEntries below key b overridable index items world = some (flowed, world')) :
    flowed.length ≤ items.length := by
  induction items generalizing flowed world index with
  | nil =>
    cases yields
    exact Nat.le_refl 0
  | cons entry rest ih =>
    obtain ⟨first, others, middle, -, later, rfl⟩ :=
      flowEntries_cons (plain entry List.mem_cons_self) yields
    have shorter := ih (fun item member => plain item (List.mem_cons_of_mem _ member)) later
    cases first <;> simp <;> omega

/-! ### Directives that merge -/

theorem controlNames_eq_nil {fields : Fields Node}
    (none_named : (Fields.keys fields).any (fun key => (controlSuffix? key).any (· ≠ "")) = false) :
    controlNames fields = [] := by
  rw [List.any_eq_false] at none_named
  rw [controlNames, List.filterMap_eq_nil_iff]
  intro key member
  have unnamed := none_named key member
  cases suffix : controlSuffix? key with
  | none => rfl
  | some name =>
    rw [suffix, Option.any_some] at unnamed
    exact Option.filter_some_neg (by simpa using unnamed)

theorem Expr.isTemplateDirective_of_keepsStubPaths {e : Expr} (keeps : e.keepsStubPaths = true) :
    e.isTemplateDirective = false := by
  induction e using Expr.keepsStubPaths.induct with
  | case1 inner ih => exact ih keeps
  | case3 markers =>
    rw [Expr.keepsStubPaths, Bool.not_eq_true'] at keeps
    exact keeps
  | case2 | case4 => rfl
  | case5 e notGrouped notMerge notBare notMarked =>
    simp [Expr.keepsStubPaths] at keeps

theorem foldl_addMarker (markers : List Marker) (info : Info) :
    (markers.foldl Info.addMarker info).replace = info.replace ∧
      (markers.foldl Info.addMarker info).redirectPath = info.redirectPath := by
  induction markers generalizing info with
  | nil => exact ⟨rfl, rfl⟩
  | cons marker rest ih =>
    rw [List.foldl_cons, (ih _).1, (ih _).2]
    rcases marker with ⟨_ | _⟩ | _ <;> exact ⟨rfl, rfl⟩

/-- A directive that keeps stub paths neither replaces nor redirects. -/
theorem evaluate_of_keepsStubPaths {e : Expr} (keeps : e.keepsStubPaths = true) {r : Resolved}
    (yields : outcomeOf engine deeper e b world = some (.ok r, world')) :
    r.info.replace = false ∧ r.info.redirectPath = none := by
  induction e using Expr.keepsStubPaths.induct generalizing r world world' with
  | case1 inner ih =>
    rw [outcomeOf, evaluate] at yields
    exact ih keeps yields
  | case2 m =>
    rw [Expr.keepsStubPaths, Bool.and_eq_true, Option.isNone_iff_eq_none, Bool.not_eq_true'] at keeps
    rw [outcomeOf, evaluate, MergeExpr.run] at yields
    split at yields
    · obtain ⟨value, middle, -, made⟩ := Eval.eq_of_bind yields
      cases made
      exact ⟨keeps.2, keeps.1⟩
    · split at yields
      · cases yields
      · cases yields
        exact ⟨keeps.2, keeps.1⟩
  | case3 markers =>
    rw [outcomeOf, evaluate] at yields
    cases yields
    exact foldl_addMarker markers {}
  | case4 markers inner ih =>
    rw [Expr.keepsStubPaths, Bool.and_eq_true, Bool.not_eq_true'] at keeps
    rw [outcomeOf, evaluate, if_neg (by rw [keeps.1]; exact Bool.false_ne_true)] at yields
    obtain ⟨resolved, middle, first, made⟩ := Eval.eq_of_bind yields
    cases made
    obtain ⟨stays, unmoved⟩ := ih keeps.2 first
    have marked := foldl_addMarker markers resolved.info
    exact ⟨marked.1.trans stays, marked.2.trans unmoved⟩
  | case5 e notGrouped notMerge notBare notMarked =>
    simp [Expr.keepsStubPaths] at keeps

/-- A directive that does not replace leaves the own fields of its map, unless it yields no map. -/
theorem spliceDirective_of_not_replace {node : Node} {fields : Fields Node} {r : Resolved}
    (stays : r.info.replace = false) :
    (∃ written, spliceDirective node fields r =
        .fields written (r.info.annotateContainer node.annotations.clearIssue) ∧
      ∀ key child, key ≠ directiveKey → Fields.find? fields key = some child →
        Fields.find? written key = some child) ∨
    ∃ other, spliceDirective node fields r = .value other ∧ ∀ fields, other.value ≠ .map fields := by
  have own : ∀ key child, key ≠ directiveKey → Fields.find? fields key = some child →
      Fields.find? (Fields.erase directiveKey fields) key = some child := by
    intro key child differs known
    rw [Fields.find?_erase_of_ne differs, known]
  rw [spliceDirective]
  cases yielded : r.directiveValue with
  | nil => exact .inl ⟨_, rfl, own⟩
  | map spliced =>
    refine .inl ⟨Fields.fill (Fields.erase directiveKey fields) spliced, ?_, ?_⟩
    · simp only [stays, Bool.false_eq_true, if_false]
    · intro key child differs known
      exact Fields.find?_fill_of_some (own key child differs known)
  | _ => exact .inr ⟨_, rfl, by simp⟩

/-! ### Containers that keep their shape -/

/-- A list without directives that no stub overrides is flowed entry by entry. -/
theorem flowList_of_still {node : Node} {items : List Node} {result : Option Node}
    (kept : overridable = true → node.annotations.expanded = false →
      stubOverride? engine.defaultKey node b = none)
    (plain : ∀ item ∈ items, item.listDirective? = none)
    (flows : flowList engine deeper below node items b overridable world =
      some (result, world')) :
    ∃ flowed, flowEntries below (node.annotations.listKey engine.defaultKey) b
        (overridable && !node.annotations.blocksOverride) 0 items world = some (flowed, world') ∧
      result = some ⟨.list flowed, node.annotations.clearIssue, node.source⟩ := by
  have whole : (if overridable && !node.annotations.expanded then
      stubOverride? engine.defaultKey node b else none) = none := by
    split
    · next asked =>
      rw [Bool.and_eq_true, Bool.not_eq_true'] at asked
      exact kept asked.1 asked.2
    · rfl
  rw [flowList, flowListDirective, firstDirective?_eq_none plain] at flows
  simp only [whole, pure_bind] at flows
  obtain ⟨flowed, middle, yields, rest⟩ := Run.eq_of_bind flows
  cases rest
  exact ⟨flowed, yields, rfl⟩

section

variable {node : Node} {fields : Fields Node} {result : Option Node}
  (kept : overridable = true → mapOverride? engine.defaultKey node b = none)
  (noState : b.document.state = none)

include kept noState

/-- A map without a control that no stub overrides, and that is no template, is flowed as its
directive and its fields say. -/
theorem flowMap_of_kept {directive : Option (Node × Expr)}
    (found : ((Fields.find? fields directiveKey).bind fun written =>
      written.expr?.map fun e => (written, e)) = directive)
    (shown : ∀ written e, directive = some (written, e) → e.isTemplateDirective = false)
    (noControl : controlNames fields = []) :
    flowMap engine deeper below node fields b overridable =
      (do
        match ← flowDirective engine deeper node fields directive b with
        | .value result => return some result
        | .fields fields annotations =>
          let flowed ← flowFields below (b.inside annotations)
            (overridable && !annotations.blocksOverride) fields
          return some ⟨.map flowed, annotations, node.source⟩) := by
  have whole : (if overridable then mapOverride? engine.defaultKey node b else none) = none := by
    split
    · next asked => exact kept asked
    · rfl
  have noTemplate : (directive.filter fun d => d.2.isTemplateDirective) = none := by
    rcases directive with _ | ⟨written, e⟩
    · rfl
    · exact Option.filter_some_neg (by simp [shown written e rfl])
  unfold flowMap
  simp only [whole, found, noTemplate, runControl, noControl, flowPlainMap, mapState?,
    Binding.stateValue?, noState, Option.bind_none, Option.map_none, ite_self]
  rfl

/-- A map without a control and a directive that no stub overrides is flowed field by field. -/
theorem flowMap_of_still
    (noDirective : (Fields.find? fields directiveKey).bind Node.expr? = none)
    (noControl : controlNames fields = [])
    (flows : flowMap engine deeper below node fields b overridable world =
      some (result, world')) :
    ∃ flowed, flowFields below (b.inside node.annotations)
        (overridable && !node.annotations.blocksOverride) fields world = some (flowed, world') ∧
      result = some ⟨.map flowed, node.annotations.clearIssue, node.source⟩ := by
  have found : ((Fields.find? fields directiveKey).bind fun written =>
      written.expr?.map fun e => (written, e)) = none := by
    cases entry : Fields.find? fields directiveKey with
    | none => rfl
    | some written =>
      rw [entry, Option.bind_some] at noDirective
      rw [Option.bind_some, noDirective, Option.map_none]
  rw [flowMap_of_kept kept noState found (by simp) noControl, flowDirective, pure_bind] at flows
  obtain ⟨flowed, middle, yields, rest⟩ := Run.eq_of_bind flows
  cases rest
  exact ⟨flowed, yields, rfl⟩

/-- A map whose shape is closed keeps its own fields in a pass, each at its place, unless a value that
is no map takes its place. -/
theorem flowMap_of_closed (closed : shapeIsOpen fields = false)
    (flows : flowMap engine deeper below node fields b overridable world =
      some (result, world')) :
    (∃ written flowed annotations inner middle,
      flowFields below (b.inside node.annotations) inner written middle = some (flowed, world') ∧
      (inner = true → (overridable && !node.annotations.blocksOverride) = true) ∧
      (∀ key child, key ≠ directiveKey → Fields.find? fields key = some child →
        Fields.find? written key = some child) ∧
      annotations.hasError = false ∧ annotations.failed = false ∧
      result = some ⟨.map flowed, annotations, node.source⟩) ∨
    ∃ other, result = some other ∧ ∀ fields, other.value ≠ .map fields := by
  rw [shapeIsOpen, Bool.or_eq_false_iff] at closed
  obtain ⟨noControl, moves⟩ := closed
  cases directive : (Fields.find? fields directiveKey).bind Node.expr? with
  | none =>
    obtain ⟨flowed, yields, rfl⟩ :=
      flowMap_of_still kept noState directive (controlNames_eq_nil noControl) flows
    exact .inl ⟨fields, flowed, _, _, world, yields, id, fun _ _ _ found => found, rfl, rfl, rfl⟩
  | some e =>
    rw [directive, Option.any_some, Bool.not_eq_false'] at moves
    obtain ⟨written, entry, read⟩ := Option.bind_eq_some_iff.mp directive
    have found : ((Fields.find? fields directiveKey).bind fun written =>
        written.expr?.map fun e => (written, e)) = some (written, e) := by
      rw [entry, Option.bind_some, read, Option.map_some]
    rw [flowMap_of_kept kept noState found (by
      rintro _ _ ⟨⟩
      exact Expr.isTemplateDirective_of_keepsStubPaths moves) (controlNames_eq_nil noControl),
      flowDirective] at flows
    obtain ⟨spliced, middle, first, rest⟩ := Run.eq_of_bind flows
    obtain ⟨outcome, inside, yields, done⟩ := Run.eq_of_bind first
    cases outcome with
    | error u =>
      cases done
      obtain ⟨flowed, last, fieldwise, made⟩ := Run.eq_of_bind rest
      cases made
      refine .inl ⟨_, flowed, _, _, _, fieldwise, id, ?_, rfl, rfl, rfl⟩
      intro key child differs known
      rw [Fields.find?_insert, if_neg (Ne.symm differs), known]
    | ok r =>
      cases done
      obtain ⟨stays, unmoved⟩ := evaluate_of_keepsStubPaths moves yields
      have place : b.inside (r.info.annotateContainer node.annotations.clearIssue) =
          b.inside node.annotations := by
        simp [Binding.inside, Info.annotateContainer, Info.annotate, unmoved,
          Annotations.clearIssue]
      have narrower : (overridable &&
            !(r.info.annotateContainer node.annotations.clearIssue).blocksOverride) = true →
          (overridable && !node.annotations.blocksOverride) = true := by
        simp only [Info.annotateContainer, Info.annotate, Annotations.clearIssue,
          Annotations.blocksOverride]
        grind
      rcases spliceDirective_of_not_replace stays with
        ⟨written, shape, own⟩ | ⟨other, shape, notMap⟩
      · rw [shape] at rest
        obtain ⟨flowed, last, fieldwise, made⟩ := Run.eq_of_bind rest
        cases made
        rw [place] at fieldwise
        exact .inl ⟨written, flowed, _, _, _, fieldwise, narrower, own, rfl, rfl, rfl⟩
      · rw [shape] at rest
        cases rest
        exact .inr ⟨other, rfl, notMap⟩

end

end

end Cascade
