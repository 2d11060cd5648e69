import Cascade.Proofs.FinalReferences
import Cascade.Proofs.ResolvedNodes

/-!
# Absence

`defined(r)` and `r || d` are answered over the snapshot of some pass. While the reference is pending
they wait; once it resolves, or leads nowhere, the answer is given and stays. This module says when
it still holds in the final tree.

A name that is missing stays missing where the shape of things is closed: in a document without
stubs, a map without controls and without a directive that could add fields never gains a name, and
a list that keeps its entries and their identities gains none either. So an answer is final if the
containers around the field and those on the way of the reference, up to the one where it stops,
have that shape. A map whose directive is still pending, or a list whose entries are not named yet,
is taken as it stands; nothing waits for it.

## Main definitions

* `Query`: the two forms that ask for a reference.
* `Node.isShut`: nothing but expressions is left to be done with the node.
* `isSteady`, `steadyWithin`: a pass, and all passes of a run, leave an answer true.

## Main statements

* `flowNode_of_isShut`: a pass does not give names to a node whose shape is closed.
* `stands_of_pass`: what one pass preserves.
* `apply_absence`: the answers of a document agree with the final tree.
-/

namespace Cascade

/-! ### Shapes without stubs -/

section

variable {engine : Engine} {deeper : Deeper} {b : Binding} {overridable : Bool}
  {world world' : World}

/-- In a document without stubs, a directive that merges has nothing to add. -/
theorem evaluate_of_keepsStubPaths_of_noStubs {e : Expr} (keeps : e.keepsStubPaths = true)
    (noStubs : b.document.stubs = []) {r : Resolved}
    (yields : outcomeOf engine deeper e b world = some (.ok r, world')) : r.value = .nil := by
  induction e using Expr.keepsStubPaths.induct generalizing r world world' with
  | case1 inner ih =>
    rw [outcomeOf, evaluate] at yields
    exact ih keeps yields
  | case2 m =>
    rw [outcomeOf, evaluate, MergeExpr.run] at yields
    simp only [Binding.stubValue?, noStubs, List.findSome?_nil] at yields
    split at yields
    · cases yields
    · cases yields
      rfl
  | case3 markers =>
    rw [outcomeOf, evaluate] at yields
    cases yields
    rfl
  | case4 markers inner ih =>
    rw [Expr.keepsStubPaths, Bool.and_eq_true, Bool.not_eq_true'] at keeps
    rw [outcomeOf, evaluate, if_neg (by rw [keeps.1]; exact Bool.false_ne_true)] at yields
    obtain ⟨resolved, middle, first, made⟩ := Eval.eq_of_bind yields
    cases made
    have nothing : resolved.value = .nil := ih keeps.2 first
    exact nothing
  | case5 e notGrouped notMerge notBare notMarked =>
    simp [Expr.keepsStubPaths] at keeps

/-- A name that is missing in a map is missing in the flowed map. -/
theorem find?_flowFields_eq_none {below : FlowBelow} {fields flowed : Fields Node} {key : String}
    (missing : Fields.find? fields key = none)
    (yields : flowFields below b overridable fields world = some (flowed, world')) :
    Fields.find? flowed key = none := by
  rw [Fields.find?_eq_none_iff] at missing ⊢
  intro field member
  obtain ⟨before, known, named⟩ := mem_flowFields yields field member
  rw [← named]
  exact missing before known

variable (alone : b.IsAlone)

include alone

/-- In a document without stubs, a map whose shape is closed stays a map, and gains no name. -/
theorem flowMap_of_closed_alone {below : FlowBelow} {fields : Fields Node}
    {annotations : Annotations} {source : String} {result : Option Node}
    (closed : shapeIsOpen fields = false)
    (flows : flowMap engine deeper below ⟨.map fields, annotations, source⟩ fields b overridable
      world = some (result, world')) :
    ∃ flowed after, result = some ⟨.map flowed, after, source⟩ ∧ after.hasError = false ∧
      after.failed = false ∧
      ∀ key, Fields.find? fields key = none → Fields.find? flowed key = none := by
  have kept : overridable = true →
      mapOverride? engine.defaultKey ⟨.map fields, annotations, source⟩ b = none :=
    fun _ => mapOverride?_of_noStubs alone.stubs
  rw [shapeIsOpen, Bool.or_eq_false_iff] at closed
  obtain ⟨noControl, moves⟩ := closed
  cases directive : (Fields.find? fields directiveKey).bind Node.expr? with
  | none =>
    obtain ⟨flowed, yields, rfl⟩ :=
      flowMap_of_still kept alone.state directive (controlNames_eq_nil noControl) flows
    exact ⟨flowed, _, rfl, rfl, rfl, fun key missing => find?_flowFields_eq_none missing yields⟩
  | some e =>
    rw [directive, Option.any_some, Bool.not_eq_false'] at moves
    obtain ⟨written, entry, read⟩ := Option.bind_eq_some_iff.mp directive
    have found : ((Fields.find? fields directiveKey).bind fun written =>
        written.expr?.map fun e => (written, e)) = some (written, e) := by
      rw [entry, Option.bind_some, read, Option.map_some]
    rw [flowMap_of_kept kept alone.state found (by
      rintro _ _ ⟨⟩
      exact Expr.isTemplateDirective_of_keepsStubPaths moves) (controlNames_eq_nil noControl),
      flowDirective] at flows
    obtain ⟨spliced, middle, first, rest⟩ := Run.eq_of_bind flows
    obtain ⟨outcome, inside, yields, done⟩ := Run.eq_of_bind first
    cases outcome with
    | error u =>
      cases done
      obtain ⟨flowed, last, fieldwise, made⟩ := Run.eq_of_bind rest
      cases made
      refine ⟨flowed, _, rfl, rfl, rfl, fun key missing => find?_flowFields_eq_none ?_ fieldwise⟩
      rw [Fields.find?_insert, missing, if_neg]
      rintro rfl
      rw [missing] at entry
      cases entry
    | ok r =>
      have nothing := evaluate_of_keepsStubPaths_of_noStubs moves
        (show b.directive.document.stubs = [] from alone.stubs) yields
      have own : spliceDirective ⟨.map fields, annotations, source⟩ fields r =
          .fields (Fields.erase directiveKey fields)
            (r.info.annotateContainer annotations.clearIssue) := by
        have value : r.directiveValue = .nil := by rw [Resolved.directiveValue, nothing, ite_self]
        rw [spliceDirective, value]
      cases done
      rw [own] at rest
      obtain ⟨flowed, last, fieldwise, made⟩ := Run.eq_of_bind rest
      cases made
      refine ⟨flowed, _, rfl, rfl, rfl, fun key missing => find?_flowFields_eq_none ?_ fieldwise⟩
      rw [Fields.find?_eq_none_iff] at missing ⊢
      exact fun field member => missing field (Fields.mem_erase member)

end

/-- Nothing but expressions is left to be done with the node: a map has no control, and no directive
other than one that merges, and a list has no directive. -/
def Node.isShut (node : Node) : Bool :=
  match node.value with
  | .map fields => !shapeIsOpen fields
  | .list items => items.all fun item => item.listDirective?.isNone
  | _ => true

/-- A list keeps its entries and their identities. -/
def keepsEntries (defaultKey : String) (before after : Node) : Bool :=
  match before.value with
  | .list _ => keepsShape defaultKey before after
  | _ => true

section

variable {engine : Engine} {deeper : Deeper} {b : Binding} {overridable : Bool}
  {world world' : World}

/-- In a document without stubs, a leaf that is available is flowed to itself. -/
theorem flowNode_leaf_of_available {node : Node} {fuel : Nat} {result : Option Node}
    (noStubs : b.document.stubs = []) {name : String} (available : checkAvailable name node = .ok ())
    (notList : ∀ items, node.value ≠ .list items) (notMap : ∀ fields, node.value ≠ .map fields)
    (flows : flowNode engine deeper fuel node b overridable world = some (result, world')) :
    result = some node := by
  obtain ⟨value, annotations, source⟩ := node
  have kept : ∀ leaf, flowLeaf engine leaf b overridable = leaf := by
    intro leaf
    rw [flowLeaf, stubOverride?_of_noStubs noStubs, ite_self, Option.getD_none]
  unfold checkAvailable at available
  split at available
  · cases available
  · cases fuel with
    | zero => cases flows
    | succ fuel =>
      rw [flowNode] at flows
      cases value with
      | list items => exact absurd rfl (notList items)
      | map fields => exact absurd rfl (notMap fields)
      | expression e => cases available
      | string text =>
        simp only at available
        split at available
        · cases available
        · next read =>
          have literal : flowString engine deeper ⟨.string text, annotations, source⟩ text b
              overridable = pure (some ⟨.string text, annotations, source⟩) := by
            unfold flowString
            split
            · rw [kept]
            · rw [kept]
            · next e reads => exact absurd (Embedded.isUnread_iff_classify.mpr (.inl ⟨e, reads⟩)) read
            · next problem reads =>
              exact absurd (Embedded.isUnread_iff_classify.mpr (.inr ⟨problem, reads⟩)) read
          simp only [literal] at flows
          cases flows
          rfl
      | _ =>
        simp only [kept] at flows
        cases flows
        rfl

/-- In a document without stubs, a container whose shape is closed is not removed, references may
lead through it, and what it lacks it does not gain. -/
theorem flowNode_of_shutContainer {node : Node} {fuel : Nat} {result : Option Node}
    (alone : b.IsAlone) (container : (∃ items, node.value = .list items) ∨
      ∃ fields, node.value = .map fields) (shut : node.isShut = true)
    (flows : flowNode engine deeper fuel node b overridable world = some (result, world')) :
    ∃ after, result = some after ∧ (∀ name, checkAvailable name after = .ok ()) ∧
      (∀ key, node.field? key = none → after.field? key = none) ∧
      ∀ segment, node.step? segment engine.defaultKey = none →
        keepsEntries engine.defaultKey node after = true →
        after.step? segment engine.defaultKey = none := by
  obtain ⟨value, annotations, source⟩ := node
  cases fuel with
  | zero => cases flows
  | succ fuel =>
    rw [flowNode] at flows
    rcases container with ⟨items, shape⟩ | ⟨fields, shape⟩
    · obtain rfl : value = .list items := shape
      rw [Node.isShut, List.all_eq_true] at shut
      have plain : ∀ item ∈ items, item.listDirective? = none := fun item member =>
        Option.isNone_iff_eq_none.mp (shut item member)
      obtain ⟨flowed, -, rfl⟩ :=
        flowList_of_still (fun _ _ => stubOverride?_of_noStubs alone.stubs) plain flows
      refine ⟨_, rfl, fun name => rfl, fun key missing => rfl, fun segment missing shape => ?_⟩
      have same : items.map (Node.identity? · (annotations.listKey engine.defaultKey)) =
          flowed.map (Node.identity? · (annotations.listKey engine.defaultKey)) := by
        simpa [keepsEntries, keepsShape] using shape
      have long : items.length = flowed.length := by
        rw [← List.length_map (Node.identity? · (annotations.listKey engine.defaultKey)), same,
          List.length_map]
      have key : ∀ list a, Node.keyName ⟨.list list, a, source⟩ engine.defaultKey =
          a.listKey engine.defaultKey := fun _ _ => rfl
      have listKey : annotations.clearIssue.listKey engine.defaultKey =
          annotations.listKey engine.defaultKey := rfl
      rw [Node.step?, key, Path.stepBy?_list] at missing ⊢
      rw [listKey, ← Path.position?_of_identities same]
      rw [Option.bind_eq_none_iff] at missing ⊢
      intro position named
      have beyond := missing position named
      rw [List.getElem?_eq_none_iff] at beyond ⊢
      omega
    · obtain rfl : value = .map fields := shape
      rw [Node.isShut, Bool.not_eq_true'] at shut
      obtain ⟨flowed, after, rfl, noError, notFailed, gains⟩ :=
        flowMap_of_closed_alone alone shut flows
      refine ⟨_, rfl, fun name => ?_, gains, fun segment missing _ => gains segment missing⟩
      simp [checkAvailable, noError, notFailed]

/-- In a document without stubs, an available node whose shape is closed is not removed, references
may lead through it as before, and what it lacks it does not gain. -/
theorem flowNode_of_isShut {node : Node} {fuel : Nat} {result : Option Node} (alone : b.IsAlone)
    {name : String} (available : checkAvailable name node = .ok ()) (shut : node.isShut = true)
    (flows : flowNode engine deeper fuel node b overridable world = some (result, world')) :
    ∃ after, result = some after ∧ (∀ name, checkAvailable name after = .ok ()) ∧
      ∀ segment, node.step? segment engine.defaultKey = none →
        keepsEntries engine.defaultKey node after = true →
        after.step? segment engine.defaultKey = none := by
  by_cases container : (∃ items, node.value = .list items) ∨ ∃ fields, node.value = .map fields
  · obtain ⟨after, same, open_, -, misses⟩ := flowNode_of_shutContainer alone container shut flows
    exact ⟨after, same, open_, misses⟩
  · rw [not_or, not_exists, not_exists] at container
    have same :=
      flowNode_leaf_of_available alone.stubs available container.1 container.2 flows
    exact ⟨node, same, fun other => checkAvailable_ok available, fun segment missing _ => missing⟩

end

theorem Node.carriesControl_eq (node : Node) : node.carriesControl = node.value.carriesControl := by
  cases node
  rfl

/-- In a document without stubs, neither a control nor a stub changes a node without controls. -/
theorem isCalm_of_noStubs {defaultKey : String} {node : Node} {b : Binding} {overridable : Bool}
    (noStubs : b.document.stubs = []) (plain : node.carriesControl = false) :
    isCalm defaultKey node b overridable = true := by
  induction node using Node.treeInduction generalizing b overridable with
  | list items annotations source ih =>
    rw [Node.carriesControl, Value.carriesControl, itemsCarryControl_eq_any,
      List.any_eq_false] at plain
    have entries : ∀ key inner index items', (∀ item ∈ items', item ∈ items) →
        itemsCalm defaultKey key index items' b inner = true := by
      intro key inner index items'
      induction items' generalizing index with
      | nil => intro _; rw [itemsCalm]
      | cons item rest others =>
        intro part
        have member := part item List.mem_cons_self
        rw [itemsCalm, ih item member (by exact noStubs) (by simpa using plain item member),
          Bool.true_and]
        exact others (index + 1) fun item member => part item (List.mem_cons_of_mem _ member)
    simp only [isCalm]
    rw [stubOverride?_of_noStubs noStubs, entries _ _ _ _ fun item member => member]
    simp
  | map fields annotations source ih =>
    rw [Node.carriesControl, Value.carriesControl, Bool.or_eq_false_iff, Bool.not_eq_false',
      fieldsCarryControl_eq_any, List.any_eq_false] at plain
    have inner : (b.inside annotations).document.stubs = [] := by
      rw [Binding.document_inside, noStubs]
    have children : ∀ o fields', (∀ field ∈ fields', field ∈ fields) →
        fieldsCalm defaultKey fields' (b.inside annotations) o = true := by
      intro o fields'
      induction fields' with
      | nil => intro _; rw [fieldsCalm]
      | cons field rest others =>
        intro part
        obtain ⟨key, child⟩ := field
        have member := part (key, child) List.mem_cons_self
        have first : (key = directiveKey ||
            isCalm defaultKey child ((b.inside annotations).child key) o) = true := by
          by_cases directive : key = directiveKey
          · simp [directive]
          · have free := plain.2 (key, child) member
            rw [ih (key, child) member (by exact inner) (by simpa [directive] using free),
              Bool.or_true]
        rw [fieldsCalm, first, Bool.true_and]
        exact others fun field member => part field (List.mem_cons_of_mem _ member)
    simp only [isCalm]
    rw [mapOverride?_of_noStubs noStubs, children _ _ fun field member => member, plain.1]
    simp
  | leaf value annotations source notList notMap =>
    cases value with
    | list items => exact absurd rfl (notList items)
    | map fields => exact absurd rfl (notMap fields)
    | _ => simp [isCalm, stubOverride?_of_noStubs noStubs]

/-- In a document without stubs, a resolved node without controls is flowed to itself. -/
theorem flowNode_of_alone {engine : Engine} {deeper : Deeper} {node : Node} {b : Binding}
    {overridable : Bool} {fuel : Nat} {result : Option Node} {world world' : World}
    (alone : b.IsAlone) (resolved : node.isResolved = true) (plain : node.carriesControl = false)
    (flows : flowNode engine deeper fuel node b overridable world = some (result, world')) :
    result = some node :=
  flowNode_of_calm resolved alone.state (isCalm_of_noStubs alone.stubs plain)
    (fun asked : overridable = true => asked) flows

/-! ### Where references stop -/

/-- The part of a path that leads somewhere. -/
def Node.reach (defaultKey : String) : Node → List String → List String
  | _, [] => []
  | node, segment :: rest =>
    match node.step? segment defaultKey with
    | none => []
    | some next => segment :: next.reach defaultKey rest

theorem checkAvailable_ne_error {name : String} {node : Node} {info : Info} :
    checkAvailable name node ≠ .error (.error info) := by
  unfold checkAvailable
  split
  · simp
  · split
    · simp [Unresolved.pendingWith]
    · split <;> simp [Unresolved.pendingWith]
    · simp

section

variable {defaultKey : String} {node stop : Node} {seen path rest : List String} {segment : String}

theorem Node.reach_append (found : node.lookup? path defaultKey = some stop) :
    node.reach defaultKey (path ++ rest) = path ++ stop.reach defaultKey rest := by
  induction path generalizing node with
  | nil =>
    cases found
    rfl
  | cons segment path ih =>
    rw [Node.lookup?_cons] at found
    obtain ⟨next, step, onward⟩ := Option.bind_eq_some_iff.mp found
    simp only [List.cons_append, Node.reach, step, ih onward]

/-- No map around the place has the name, if none is found. -/
theorem findEnclosing?_eq_none_iff {root : Node} {place : List String} {name : String} :
    Reference.findEnclosing? defaultKey root place name = none ↔
      ∀ depth < place.length, hasNameAt defaultKey root place name depth = false := by
  rw [Reference.findEnclosing?, List.findSome?_eq_none_iff]
  simp only [List.mem_reverse, List.mem_range, hasNameAt, Option.isSome_eq_false_iff,
    Option.isNone_iff_eq_none]

/-- A path along which a walk fails leads to an available node that lacks the next segment. -/
theorem walkPath_error {info : Info}
    (walks : walkPath defaultKey node seen path = .error (.error info)) :
    ∃ stop segment rest, path = node.reach defaultKey path ++ segment :: rest ∧
      walkPath defaultKey node seen (node.reach defaultKey path) = .ok stop ∧
      (∀ name, checkAvailable name stop = .ok ()) ∧ stop.step? segment defaultKey = none := by
  induction path generalizing node seen with
  | nil => cases walks
  | cons segment rest ih =>
    rw [walkPath] at walks
    cases available : checkAvailable (Path.render seen) node with
    | error u =>
      rw [available] at walks
      cases walks
      exact absurd available checkAvailable_ne_error
    | ok _ =>
      rw [available] at walks
      cases found : node.step? segment defaultKey with
      | none =>
        exact ⟨node, segment, rest, by simp [Node.reach, found], by simp [Node.reach, found, walkPath],
          fun name => checkAvailable_ok available, found⟩
      | some next =>
        rw [found] at walks
        obtain ⟨stop, last, after, same, onward, open_, missing⟩ := ih walks
        refine ⟨stop, last, after, ?_, ?_, open_, missing⟩
        · simp only [Node.reach, found, List.cons_append]
          rw [← same]
        · simp only [Node.reach, found]
          rw [walkPath, available, found]
          exact onward

/-- A walk fails at an available node that lacks the next segment. -/
theorem walkPath_of_missing (walks : walkPath defaultKey node seen path = .ok stop)
    (available : ∀ name, checkAvailable name stop = .ok ())
    (missing : stop.step? segment defaultKey = none) :
    ∃ info, walkPath defaultKey node seen (path ++ segment :: rest) = .error (.error info) := by
  induction path generalizing node seen with
  | nil =>
    cases walks
    rw [List.nil_append, walkPath, available, missing]
    exact ⟨_, rfl⟩
  | cons first path ih =>
    rw [walkPath] at walks
    rw [List.cons_append, walkPath]
    cases open_ : checkAvailable (Path.render seen) node with
    | error u =>
      rw [open_] at walks
      cases walks
    | ok _ =>
      rw [open_] at walks
      cases found : node.step? first defaultKey with
      | none =>
        rw [found] at walks
        cases walks
      | some next =>
        rw [found] at walks
        exact ih walks

end

/-! ### What a pass leaves true -/

section

variable (engine : Engine) (s : Setting) (r : Reference) (place : List String)

/-- The containers around a place keep their shape in a pass. -/
def keepsPlace (before after : Node) : Bool :=
  (visit? engine s before after place).any fun v => v.binding.scope.anchor == place

/-- The node at the end of the way of a reference, if the containers on the way keep their shape. -/
def targetVisit? (before after : Node) : Option Visit :=
  (r.way? engine.defaultKey before place).bind (visit? engine s before after)

/-- Where the way of a reference stops, a pass adds nothing. -/
def keepsStop (before after : Node) : Bool :=
  (r.way? engine.defaultKey before place).all fun way =>
    let reached := before.reach engine.defaultKey way
    (visit? engine s before after reached).any fun v =>
      v.node.isShut &&
        (after.lookup? reached engine.defaultKey).any (keepsEntries engine.defaultKey v.node)

end

section

variable {engine : Engine} {deeper : Deeper} {s : Setting} {r : Reference} {place : List String}
  {before after : Node} {world world' : World}

theorem Visit.isShut_of_child {v child : Visit} {defaultKey segment : String}
    (down : v.child? defaultKey segment = some child) :
    v.node.isShut = true ∧ ((∃ items, v.node.value = .list items) ∨
      ∃ fields, v.node.value = .map fields) := by
  obtain ⟨⟨value, annotations, source⟩, b, allowed⟩ := v
  cases value with
  | map fields =>
    simp only [Visit.child?] at down
    split at down
    · cases down
    · next open_ =>
      simp only [Bool.or_eq_true, decide_eq_true_eq, not_or, Bool.not_eq_true] at open_
      exact ⟨by simp [Node.isShut, open_.1.2], .inr ⟨fields, rfl⟩⟩
  | list items =>
    simp only [Visit.child?] at down
    split at down
    · cases down
    · next open_ =>
      simp only [Bool.or_eq_true, not_or, Bool.not_eq_true, List.any_eq_false] at open_
      refine ⟨?_, .inl ⟨items, rfl⟩⟩
      rw [Node.isShut, List.all_eq_true]
      intro item member
      simpa using open_.1 item member
  | _ => cases down

variable (noStubs : s.stubs = []) (noState : s.state = none)

include noStubs noState

theorem Visit.isAlone_of_visit {path : List String} {v : Visit}
    (visits : visit? engine s before after path = some v) : v.binding.IsAlone := by
  obtain ⟨names, scope⟩ := Visit.scope_of_follow visits
  exact ⟨by rw [Binding.document, scope]; exact noStubs, by rw [Binding.document, scope]; exact noState⟩

variable (flowed : pass engine deeper s before world = some (after, world'))

include flowed

/-- No map around a place whose containers keep their shape gains a name. -/
theorem gainsName_of_visit {v : Visit} {name : String}
    (visits : visit? engine s before after place = some v) :
    gainsName engine place before after name = false := by
  rw [gainsName, List.any_eq_false]
  intro depth member gained
  rw [Bool.and_eq_true, Bool.not_eq_true'] at gained
  obtain ⟨lacked, named⟩ := gained
  have inside : depth < place.length := List.mem_range.mp member
  obtain ⟨segment, rest, below⟩ : ∃ segment rest, place.drop depth = segment :: rest :=
    ⟨place[depth], place.drop (depth + 1), List.drop_eq_getElem_cons inside⟩
  rw [← List.take_append_drop depth place, below] at visits
  obtain ⟨container, toContainer, onward⟩ := Visit.follow_append visits
  obtain ⟨child, down, -⟩ := Option.bind_eq_some_iff.mp onward
  obtain ⟨shut, kind⟩ := Visit.isShut_of_child down
  have alone := Visit.isAlone_of_visit noStubs noState toContainer
  obtain ⟨fuel, overridable, start, stop, result, -, flows, leads⟩ :=
    flow_of_visit noState flowed toContainer
  obtain ⟨later, same, -, misses, -⟩ := flowNode_of_shutContainer alone kind shut flows
  have reached := lookup_of_walkPath (leads later same [])
  rw [hasNameAt, Visit.lookup_of_follow toContainer, Option.bind_some,
    Option.isSome_eq_false_iff, Option.isNone_iff_eq_none] at lacked
  rw [hasNameAt, reached, Option.bind_some, misses name lacked] at named
  cases named

/-- Where a way stops at an available node, it stops after a pass that adds nothing there. -/
theorem walkPath_of_keepsStop {path : List String} {stop : Node} {segment : String} {v : Visit}
    (reached : before.lookup? path engine.defaultKey = some stop)
    (available : ∀ name, checkAvailable name stop = .ok ())
    (missing : stop.step? segment engine.defaultKey = none)
    (visits : visit? engine s before after path = some v) (shut : v.node.isShut = true)
    (kept : (after.lookup? path engine.defaultKey).any (keepsEntries engine.defaultKey v.node) =
      true) :
    ∃ c, (∀ seen, walkPath engine.defaultKey after seen path = .ok c) ∧
      (∀ name, checkAvailable name c = .ok ()) ∧ c.step? segment engine.defaultKey = none := by
  have same : v.node = stop :=
    Option.some.inj ((Visit.lookup_of_follow visits).symm.trans reached)
  have alone := Visit.isAlone_of_visit noStubs noState visits
  obtain ⟨fuel, overridable, start, last, result, -, flows, leads⟩ :=
    flow_of_visit noState flowed visits
  obtain ⟨c, made, open_, misses⟩ :=
    flowNode_of_isShut alone (same ▸ available "") shut flows
  have walks := leads c made
  rw [lookup_of_walkPath (walks []), Option.any_some] at kept
  exact ⟨c, walks, open_, misses segment (same ▸ missing) kept⟩

variable (untagged : r.tag = none) (noLocals : s.locals = []) (outermost : s.outer = none)

include untagged noLocals outermost

/-- A reference that leads nowhere leads nowhere after a pass that adds nothing where it stops. -/
theorem absent_of_pass {info : Info} (around : keepsPlace engine s place before after = true)
    (still : keepsStop engine s r place before after = true)
    (absent : r.find (s.scopeAt before place) engine.defaultKey = .error (.error info)) :
    ∃ info, r.find (s.scopeAt after place) engine.defaultKey = .error (.error info) := by
  obtain ⟨there, visited, -⟩ := (Option.any_eq_true _ _).mp around
  have unshadowed : ∀ name, gainsName engine place before after name = false := fun name =>
    gainsName_of_visit noStubs noState flowed visited
  have stops : ∀ way, r.way? engine.defaultKey before place = some way →
      ∃ v, visit? engine s before after (before.reach engine.defaultKey way) = some v ∧
        v.node.isShut = true ∧ (after.lookup? (before.reach engine.defaultKey way)
          engine.defaultKey).any (keepsEntries engine.defaultKey v.node) = true := by
    intro way means
    rw [keepsStop, means, Option.all_some] at still
    obtain ⟨v, visits, kept⟩ := (Option.any_eq_true _ _).mp still
    exact ⟨v, visits, Bool.and_eq_true_iff.mp kept⟩
  by_cases absolute : r.absolute = true
  · rw [find_absolute untagged absolute outermost] at absent ⊢
    obtain ⟨v, visits, shut, kept⟩ := stops r.path (by rw [Reference.way?, if_pos absolute])
    obtain ⟨stop, segment, rest, parts, walks, open_, missing⟩ := walkPath_error absent
    obtain ⟨c, onward, openAfter, missingAfter⟩ := walkPath_of_keepsStop noStubs noState flowed
      (lookup_of_walkPath walks) open_ missing visits shut kept
    rw [parts]
    exact walkPath_of_missing (onward []) openAfter missingAfter
  · have relative : r.absolute = false := by simpa using absolute
    cases path : r.path with
    | nil =>
      rw [Reference.find, untagged]
      simp only [relative, Bool.false_eq_true, if_false, path, Reference.findRelative]
      exact ⟨_, rfl⟩
    | cons first rest =>
      rw [find_relative untagged relative path noLocals outermost] at absent ⊢
      cases encloses : Reference.findEnclosing? engine.defaultKey before place first with
      | none =>
        have nowhere : Reference.findEnclosing? engine.defaultKey after place first = none := by
          rw [findEnclosing?_eq_none_iff] at encloses ⊢
          intro depth inside
          have gains : ∀ depth, depth < place.length →
              hasNameAt engine.defaultKey before place first depth = false →
              hasNameAt engine.defaultKey after place first depth = false := by
            simpa [gainsName] using unshadowed first
          exact gains depth inside (encloses depth inside)
        rw [nowhere]
        exact ⟨_, rfl⟩
      | some node =>
        rw [encloses] at absent
        rw [findEnclosing?_eq] at encloses
        obtain ⟨depth, innermost, field⟩ := Option.bind_eq_some_iff.mp encloses
        obtain ⟨container, reached, named⟩ := Option.bind_eq_some_iff.mp field
        obtain ⟨stop, segment, others, parts, walks, open_, missing⟩ := walkPath_error absent
        have means : r.way? engine.defaultKey before place =
            some (place.take depth ++ first :: rest) := by
          simp only [Reference.way?, if_neg absolute, path, innermost, Option.map_some]
        have way : before.reach engine.defaultKey (place.take depth ++ first :: rest) =
            place.take depth ++ first :: node.reach engine.defaultKey rest := by
          rw [Node.reach_append reached]
          simp only [Node.reach, Node.step?_of_field? named]
        obtain ⟨v, visits, shut, kept⟩ := stops _ means
        rw [way] at visits kept
        have stands : before.lookup? (place.take depth ++ first :: node.reach engine.defaultKey rest)
            engine.defaultKey = some stop := by
          rw [Node.lookup?_append, reached, Option.bind_some, Node.lookup?_cons,
            Node.step?_of_field? named, Option.bind_some]
          exact lookup_of_walkPath walks
        obtain ⟨c, onward, openAfter, missingAfter⟩ := walkPath_of_keepsStop noStubs noState flowed
          stands open_ missing visits shut kept
        have innermostAfter := innermost_of_visit innermost (unshadowed first) visits (onward [])
        obtain ⟨container', reached', further⟩ := walkPath_append (onward [])
        obtain ⟨child, stepped, later⟩ := walkPath_cons further
        have namedAfter := List.find?_some innermostAfter
        rw [hasNameAt, reached', Option.bind_some] at namedAfter
        obtain ⟨field', isField⟩ := Option.isSome_iff_exists.mp namedAfter
        have same : field' = child :=
          Option.some.inj ((Node.step?_of_field? isField).symm.trans stepped)
        rw [findEnclosing?_eq, innermostAfter, Option.bind_some, reached', Option.bind_some, isField,
          same, parts]
        exact walkPath_of_missing (walkPath_seen later) openAfter missingAfter

end

/-! ### Outcomes of a look-up -/

section

variable {r : Reference} {scope : Scope} {defaultKey : String} {asItIs : Bool}

theorem nodeValue_ne_error {name : String} {node : Node} {info : Info} :
    nodeValue name node asItIs ≠ .error (.error info) := by
  rw [nodeValue]
  cases available : checkAvailable name node with
  | error u =>
    intro failed
    cases failed
    exact checkAvailable_ne_error available
  | ok _ =>
    simp only [bind, Except.bind]
    split <;> simp [pure, Except.pure]

/-- A reference fails by what it finds. -/
theorem resolve_error_iff (asItIs : Bool) {info : Info} :
    r.resolve scope defaultKey asItIs = .error (.error info) ↔
      r.find scope defaultKey = .error (.error info) := by
  rw [Reference.resolve]
  cases finds : r.find scope defaultKey with
  | error u => simp [bind, Except.bind]
  | ok node => simpa [bind, Except.bind] using nodeValue_ne_error

/-- A reference that takes containers as they are has a value if what it finds is available. -/
theorem resolve_asItIs_iff {resolved : Resolved} :
    r.resolve scope defaultKey true = .ok resolved ↔
      ∃ node, r.find scope defaultKey = .ok node ∧ checkAvailable r.render node = .ok () ∧
        resolved = .ofValue node.value := by
  rw [Reference.resolve]
  cases finds : r.find scope defaultKey with
  | error u => simp [bind, Except.bind]
  | ok node =>
    cases available : checkAvailable r.render node with
    | error u => simp [bind, Except.bind, nodeValue, available]
    | ok _ => simp [bind, Except.bind, nodeValue, available, pure, Except.pure, eq_comm]

/-- There is nothing to note on the value of a reference. -/
theorem info_of_resolve {resolved : Resolved}
    (resolves : r.resolve scope defaultKey asItIs = .ok resolved) : resolved.info = {} := by
  cases asItIs with
  | true =>
    obtain ⟨node, -, -, rfl⟩ := resolve_asItIs_iff.mp resolves
    rfl
  | false =>
    obtain ⟨node, -, -, rfl⟩ := resolve_eq_ok_iff.mp resolves
    rfl

end

/-! ### Queries -/

/-- The two forms that tell whether a reference has a value: `defined(r)`, and `r || d` for some
`d`. -/
inductive Query where
  | defined
  | orElse
deriving DecidableEq

/-- `defined` takes containers as they are. -/
def Query.asItIs : Query → Bool
  | .defined => true
  | .orElse => false

/-- The expression asks for a reference. -/
def Query.isAskedIn (r : Reference) : Query → Expr → Bool
  | .defined, .intrinsic .defined [.positional (.reference other)] => other == r
  | .orElse, .fallback (.reference other) _ => other == r
  | _, _ => false

theorem Query.eq_defined {r : Reference} {e : Expr} (asked : Query.defined.isAskedIn r e = true) :
    e = .intrinsic .defined [.positional (.reference r)] := by
  unfold Query.isAskedIn at asked
  split at asked
  · rw [eq_of_beq asked]
  · next other => cases other
  · cases asked

theorem Query.eq_orElse {r : Reference} {e : Expr} (asked : Query.orElse.isAskedIn r e = true) :
    ∃ d, e = .fallback (.reference r) d := by
  unfold Query.isAskedIn at asked
  split at asked
  · next other => cases other
  · exact ⟨_, by rw [eq_of_beq asked]⟩
  · cases asked

/-- The node holds an expression that asks for a reference. -/
def Node.asks (node : Node) (q : Query) (r : Reference) : Bool := node.expr?.any (q.isAskedIn r)

/-- The node holds an expression that asks for a reference, and that was read before. -/
def Node.awaits (node : Node) (q : Query) (r : Reference) : Bool :=
  match node.value with
  | .expression e => q.isAskedIn r e
  | _ => false

theorem Node.asks_of_awaits {node : Node} {q : Query} {r : Reference}
    (awaits : node.awaits q r = true) : node.asks q r = true := by
  unfold Node.awaits at awaits
  split at awaits
  · next e shape => rw [asks, expr?, shape, Option.any_some, awaits]
  · cases awaits

section

variable {engine : Engine} {deeper : Deeper} {b : Binding} {r : Reference}

theorem observe_ofOutcome {o : Except Unresolved Resolved} :
    observe (Eval.ofOutcome o) = match o with
      | .ok resolved => pure (some resolved)
      | .error (.error _) => pure none
      | .error (.pending info) =>
        if info.failed then pure none else Eval.ofOutcome (.error (.pending info)) := by
  rcases o with (info | info) | resolved
  · change (if info.failed then pure none else throw (.pending info) : Eval _) =
      if info.failed then pure none else Eval.ofOutcome (.error (.pending info))
    split <;> rfl
  · rfl
  · rfl

/-- `defined(r)` waits while the reference is pending, unless it depends on an error. -/
theorem outcomeOf_defined :
    outcomeOf engine deeper (.intrinsic .defined [.positional (.reference r)]) b =
      pure (match r.resolve b.scope engine.defaultKey true with
        | .ok _ => .ok (.ofValue (.bool true))
        | .error (.error _) => .ok (.ofValue (.bool false))
        | .error (.pending info) =>
          if info.failed then .ok (.ofValue (.bool false)) else .error (.pending info)) := by
  rw [outcomeOf, evaluate, delay, delay]
  have run : Intrinsic.run engine deeper .defined
      [⟨true, .reference r, evaluate engine deeper (.reference r)⟩] b = (do
        let seen ← observe (Eval.ofOutcome (r.resolve b.scope engine.defaultKey true))
        return .ofValue (.bool (seen.any fun r => !r.info.undefined))) := rfl
  rw [run, observe_ofOutcome]
  rcases resolves : r.resolve b.scope engine.defaultKey true with (info | info) | resolved
  · simp only
    split <;> rfl
  · rfl
  · have known := info_of_resolve resolves
    change (pure (.ok (.ofValue (.bool !resolved.info.undefined))) :
      Run (Except Unresolved Resolved)) = _
    rw [known]
    rfl

/-- `r || d` goes on to `d` only if the reference fails. -/
theorem outcomeOf_orElse {d : Expr} :
    outcomeOf engine deeper (.fallback (.reference r) d) b =
      match r.resolve b.scope engine.defaultKey false with
      | .ok resolved => pure (.ok resolved)
      | .error (.error _) => outcomeOf engine deeper d b
      | .error (.pending info) => pure (.error (.pending info)) := by
  rw [outcomeOf, evaluate, evaluate]
  cases resolves : r.resolve b.scope engine.defaultKey false with
  | ok resolved =>
    have known : resolved.info.undefined = false := by rw [info_of_resolve resolves]
    change (if resolved.info.undefined then evaluate engine deeper d b else pure resolved).run = _
    rw [known]
    rfl
  | error u => cases u <;> rfl

/-- Where neither stubs nor a state document have a value, an expression flows to its outcome. -/
theorem flowNode_of_expr {node : Node} {e : Expr} {fuel : Nat} {overridable : Bool}
    (read : node.expr? = some e) (alone : b.IsAlone) (unmarked : e.staticInfo = {}) :
    flowNode engine deeper (fuel + 1) node b overridable = (do
      match ← outcomeOf engine deeper e b with
      | .ok resolved => return resolvedNode (node.withValue (.expression e)) e resolved
      | .error u => return some ((node.withValue (.expression e)).stillExpression e u)) := by
  have flowed : ∀ node : Node, flowExpression engine deeper node e b overridable = (do
      match ← outcomeOf engine deeper e b with
      | .ok resolved => return resolvedNode node e resolved
      | .error u => return some (node.stillExpression e u)) := by
    intro node
    have noState : expressionState? engine node e b = none := by
      rw [expressionState?, unmarked]
      exact if_neg Bool.false_ne_true
    unfold flowExpression
    simp only [expressionOverride?_of_noStubs alone.stubs, ite_self, noState] <;> rfl
  obtain ⟨value, annotations, source⟩ := node
  rw [flowNode]
  cases value with
  | expression other =>
    cases read
    exact flowed _
  | string text =>
    have reads : Embedded.classify text = .expression e := by
      unfold Node.expr? at read
      simp only at read
      split at read
      · next reads =>
        cases read
        exact reads
      · cases read
    simp only [flowString, reads]
    exact flowed _
  | _ => cases read

end

/-! ### Answers -/

section

variable (engine : Engine) (s : Setting) (r : Reference) (place : List String) (q : Query)

/-- A pass leaves an answer true. While the reference is pending, the field still asks for it. Once it
is not, the containers around the field keep their shape, and so do those on the way of the
reference: to what it finds, whose shape is closed or which carries no control, or to where it stops.
`defined` does not answer while the reference depends on an error. -/
def isSteady (before after : Node) : Bool :=
  match r.resolve (s.scopeAt before place) engine.defaultKey q.asItIs with
  | .error (.pending info) =>
    !(q.asItIs && info.failed) && (after.lookup? place engine.defaultKey).any (·.awaits q r)
  | .error (.error _) => keepsPlace engine s place before after && keepsStop engine s r place before after
  | .ok _ =>
    keepsPlace engine s place before after &&
      (targetVisit? engine s r place before after).any fun v =>
        if q.asItIs then v.node.isShut else !v.node.carriesControl

/-- The field has its answer, and it is that of the snapshot: `defined` says whether the reference has
a value, and `||` has the value if there is one. -/
def IsAnswered (root : Node) : Query → Prop
  | .defined => ∃ node, root.lookup? place engine.defaultKey = some node ∧ node.isResolved = true ∧
      node.value = .bool (r.resolve (s.scopeAt root place) engine.defaultKey true).isOk ∧
      ∀ info, r.resolve (s.scopeAt root place) engine.defaultKey true ≠ .error (.pending info)
  | .orElse =>
    (∃ node, root.lookup? place engine.defaultKey = some node ∧ node.isResolved = true ∧
      r.resolve (s.scopeAt root place) engine.defaultKey false = .ok (.ofValue node.value)) ∨
    ∃ info, r.find (s.scopeAt root place) engine.defaultKey = .error (.error info)

/-- The field asks still, or it has its answer. -/
def Stands (root : Node) : Prop :=
  (∃ node, root.lookup? place engine.defaultKey = some node ∧ node.awaits q r = true) ∨
    IsAnswered engine s r place root q

end

section

variable {engine : Engine} {deeper : Deeper} {s : Setting} {r : Reference} {place : List String}
  {before after : Node} {world world' : World} {q : Query}

variable (noStubs : s.stubs = []) (noState : s.state = none)
  (flowed : pass engine deeper s before world = some (after, world'))

include noStubs noState flowed

/-- The node at a place whose containers keep their shape is flowed there. -/
theorem flow_of_keepsPlace {node : Node} (around : keepsPlace engine s place before after = true)
    (reached : before.lookup? place engine.defaultKey = some node) :
    ∃ b fuel overridable start stop result, b.IsAlone ∧ b.scope = s.scopeAt before place ∧
      flowNode engine deeper fuel node b overridable start = some (result, stop) ∧
      ∀ c, result = some c → after.lookup? place engine.defaultKey = some c := by
  obtain ⟨v, visits, anchored⟩ := (Option.any_eq_true _ _).mp around
  rw [beq_iff_eq] at anchored
  have same : v.node = node :=
    Option.some.inj ((Visit.lookup_of_follow visits).symm.trans reached)
  obtain ⟨names, scope⟩ := Visit.scope_of_follow visits
  have here : v.binding.scope = s.scopeAt before place := by
    rw [scope] at anchored ⊢
    simp only at anchored
    rw [anchored]
    rfl
  obtain ⟨fuel, overridable, start, stop, result, -, flows, leads⟩ :=
    flow_of_visit noState flowed visits
  exact ⟨v.binding, fuel, overridable, start, stop, result,
    Visit.isAlone_of_visit noStubs noState visits, here, same ▸ flows,
    fun c made => lookup_of_walkPath (leads c made [])⟩

/-- The field that holds an expression has its value after the pass. -/
theorem flow_of_outcome {node : Node} {e : Expr} {value : Value}
    (around : keepsPlace engine s place before after = true)
    (reached : before.lookup? place engine.defaultKey = some node) (read : node.expr? = some e)
    (unmarked : e.staticInfo = {}) (whole : Node.valueResolved value = true)
    (yields : ∀ b : Binding, b.scope = s.scopeAt before place →
      outcomeOf engine deeper e b = pure (.ok (.ofValue value))) :
    ∃ c, after.lookup? place engine.defaultKey = some c ∧ c.value = value ∧
      c.isResolved = true := by
  obtain ⟨b, fuel, overridable, start, stop, result, alone, here, flows, leads⟩ :=
    flow_of_keepsPlace noStubs noState flowed around reached
  cases fuel with
  | zero => cases flows
  | succ fuel =>
    rw [flowNode_of_expr read alone unmarked, yields b here] at flows
    cases flows
    refine ⟨_, leads _ rfl, rfl, Node.isResolved_iff.mpr ⟨?_, whole⟩⟩
    simp [unmarked, Info.annotate, Resolved.ofValue, Annotations.clearIssue]

theorem unshadowed_of_keepsPlace (around : keepsPlace engine s place before after = true) :
    (r.absolute || r.path.head?.all fun name => !gainsName engine place before after name) =
      true := by
  obtain ⟨v, visits, -⟩ := (Option.any_eq_true _ _).mp around
  have none_gained : ∀ name, gainsName engine place before after name = false := fun name =>
    gainsName_of_visit noStubs noState flowed visits
  simp [none_gained]

variable (untagged : r.tag = none) (noLocals : s.locals = []) (outermost : s.outer = none)

include untagged noLocals outermost

/-- A reference that finds a container or a value as it is does so after a steady pass. -/
theorem defined_of_pass {resolved : Resolved} {v : Visit}
    (around : keepsPlace engine s place before after = true)
    (visits : targetVisit? engine s r place before after = some v) (shut : v.node.isShut = true)
    (present : r.resolve (s.scopeAt before place) engine.defaultKey true = .ok resolved) :
    ∃ resolved, r.resolve (s.scopeAt after place) engine.defaultKey true = .ok resolved := by
  obtain ⟨node, finds, available, rfl⟩ := resolve_asItIs_iff.mp present
  obtain ⟨rfl, stubs, state, fuel, overridable, start, stop, result, -, flows, leads⟩ :=
    find_of_visit untagged noLocals outermost noState flowed
      (unshadowed_of_keepsPlace noStubs noState flowed around) visits finds
  obtain ⟨c, made, open_, -⟩ :=
    flowNode_of_isShut ⟨stubs.trans noStubs, state⟩ available shut flows
  exact ⟨_, resolve_asItIs_iff.mpr ⟨c, leads c made, open_ _, rfl⟩⟩

/-- The value of a reference is its value after a steady pass. -/
theorem resolve_of_pass {resolved : Resolved} {v : Visit}
    (around : keepsPlace engine s place before after = true)
    (visits : targetVisit? engine s r place before after = some v)
    (plain : v.node.carriesControl = false)
    (present : r.resolve (s.scopeAt before place) engine.defaultKey false = .ok resolved) :
    v.node.isResolved = true ∧ resolved = .ofValue v.node.value ∧
      r.resolve (s.scopeAt after place) engine.defaultKey false = .ok resolved := by
  obtain ⟨node, finds, whole, rfl⟩ := resolve_eq_ok_iff.mp present
  obtain ⟨rfl, stubs, state, fuel, overridable, start, stop, result, -, flows, leads⟩ :=
    find_of_visit untagged noLocals outermost noState flowed
      (unshadowed_of_keepsPlace noStubs noState flowed around) visits finds
  have unchanged := flowNode_of_alone ⟨stubs.trans noStubs, state⟩ whole plain flows
  exact ⟨whole, rfl, resolve_eq_ok_iff.mpr ⟨v.node, leads _ unchanged, whole, rfl⟩⟩

/-- After a steady pass, a field that asks asks still, or has its answer. -/
theorem stands_of_asks {node : Node} (reached : before.lookup? place engine.defaultKey = some node)
    (asks : node.asks q r = true) (steady : isSteady engine s r place q before after = true) :
    Stands engine s r place q after := by
  obtain ⟨e, read, asked⟩ := (Option.any_eq_true _ _).mp asks
  cases resolves : r.resolve (s.scopeAt before place) engine.defaultKey q.asItIs with
  | ok resolved =>
    simp only [isSteady, resolves, Bool.and_eq_true] at steady
    obtain ⟨v, visits, calm⟩ := (Option.any_eq_true _ _).mp steady.2
    cases q with
    | defined =>
      obtain rfl := Query.eq_defined asked
      obtain ⟨later, present⟩ := defined_of_pass noStubs noState flowed untagged noLocals outermost
        steady.1 visits calm resolves
      obtain ⟨c, stands, value, whole⟩ := flow_of_outcome noStubs noState flowed steady.1 reached read
        rfl (show Node.valueResolved (.bool true) = true from rfl) fun b same => by
          rw [outcomeOf_defined, same]
          simp only [Query.asItIs] at resolves
          rw [resolves]
      exact .inr ⟨c, stands, whole, by rw [value, present]; rfl, by rw [present]; simp⟩
    | orElse =>
      obtain ⟨d, rfl⟩ := Query.eq_orElse asked
      rw [Query.asItIs, if_neg Bool.false_ne_true, Bool.not_eq_true'] at calm
      obtain ⟨known, rfl, still⟩ := resolve_of_pass noStubs noState flowed untagged noLocals outermost
        steady.1 visits calm resolves
      obtain ⟨c, stands, value, whole⟩ := flow_of_outcome noStubs noState flowed steady.1 reached read
        rfl (Node.isResolved_iff.mp known).2 fun b same => by
          rw [outcomeOf_orElse, same]
          simp only [Query.asItIs] at resolves
          rw [resolves]
      exact .inr (.inl ⟨c, stands, whole, by rw [value]; exact still⟩)
  | error u =>
    cases u with
    | error info =>
      simp only [isSteady, resolves, Bool.and_eq_true] at steady
      obtain ⟨later, absent⟩ := absent_of_pass noStubs noState flowed untagged noLocals outermost
        steady.1 steady.2 ((resolve_error_iff _).mp resolves)
      cases q with
      | defined =>
        obtain rfl := Query.eq_defined asked
        have still := (resolve_error_iff true).mpr absent
        obtain ⟨c, stands, value, whole⟩ := flow_of_outcome noStubs noState flowed steady.1 reached
          read rfl (show Node.valueResolved (.bool false) = true from rfl) fun b same => by
            rw [outcomeOf_defined, same]
            simp only [Query.asItIs] at resolves
            rw [resolves]
        exact .inr ⟨c, stands, whole, by rw [value, still]; rfl, by rw [still]; simp⟩
      | orElse => exact .inr (.inr ⟨later, absent⟩)
    | pending info =>
      simp only [isSteady, resolves, Bool.and_eq_true] at steady
      obtain ⟨later, stands, still⟩ := (Option.any_eq_true _ _).mp steady.2
      exact .inl ⟨later, stands, still⟩

/-- An answer stays true in a steady pass. -/
theorem isAnswered_of_pass (answered : IsAnswered engine s r place before q)
    (steady : isSteady engine s r place q before after = true) :
    IsAnswered engine s r place after q := by
  cases q with
  | defined =>
    obtain ⟨node, reached, whole, value, decided⟩ := answered
    have leaf : ∀ truth, node.value = .bool truth →
        keepsPlace engine s place before after = true →
        after.lookup? place engine.defaultKey = some node := by
      intro truth shape around
      obtain ⟨b, fuel, overridable, start, stop, result, alone, -, flows, leads⟩ :=
        flow_of_keepsPlace noStubs noState flowed around reached
      refine leads node (flowNode_of_alone alone whole ?_ flows)
      obtain ⟨content, annotations, source⟩ := node
      obtain rfl : content = .bool truth := shape
      rfl
    cases resolves : r.resolve (s.scopeAt before place) engine.defaultKey true with
    | ok resolved =>
      simp only [isSteady, Query.asItIs, resolves, Bool.and_eq_true, if_true] at steady
      obtain ⟨v, visits, shut⟩ := (Option.any_eq_true _ _).mp steady.2
      obtain ⟨later, present⟩ := defined_of_pass noStubs noState flowed untagged noLocals outermost
        steady.1 visits shut resolves
      rw [resolves] at value
      refine ⟨node, leaf _ value steady.1, whole, ?_, fun info => ?_⟩
      · rw [present, value]
        rfl
      · rw [present]
        simp
    | error u =>
      cases u with
      | error info =>
        simp only [isSteady, Query.asItIs, resolves, Bool.and_eq_true] at steady
        obtain ⟨later, absent⟩ := absent_of_pass noStubs noState flowed untagged noLocals outermost
          steady.1 steady.2 ((resolve_error_iff _).mp resolves)
        have still := (resolve_error_iff true).mpr absent
        rw [resolves] at value
        refine ⟨node, leaf _ value steady.1, whole, ?_, fun info => ?_⟩
        · rw [still, value]
          rfl
        · rw [still]
          simp
      | pending info => exact absurd resolves (decided info)
  | orElse =>
    rcases answered with ⟨node, reached, whole, resolves⟩ | ⟨info, absent⟩
    · simp only [isSteady, Query.asItIs, resolves, Bool.and_eq_true, Bool.false_eq_true, if_false]
        at steady
      obtain ⟨v, visits, free⟩ := (Option.any_eq_true _ _).mp steady.2
      rw [Bool.not_eq_true'] at free
      obtain ⟨-, same, still⟩ := resolve_of_pass noStubs noState flowed untagged noLocals outermost
        steady.1 visits free resolves
      obtain ⟨b, fuel, overridable, start, stop, result, alone, -, flows, leads⟩ :=
        flow_of_keepsPlace noStubs noState flowed steady.1 reached
      have sameValue : node.value = v.node.value := congrArg Resolved.value same
      have plain : node.carriesControl = false := by
        rw [Node.carriesControl_eq, sameValue, ← Node.carriesControl_eq, free]
      exact .inl ⟨node, leads node (flowNode_of_alone alone whole plain flows), whole, still⟩
    · have resolves := (resolve_error_iff false).mpr absent
      simp only [isSteady, Query.asItIs, resolves, Bool.and_eq_true] at steady
      exact .inr (absent_of_pass noStubs noState flowed untagged noLocals outermost steady.1 steady.2
        absent)

/-- What one steady pass preserves: the field asks still, or it has the answer of the snapshot. -/
theorem stands_of_pass (stands : Stands engine s r place q before)
    (steady : isSteady engine s r place q before after = true) : Stands engine s r place q after := by
  rcases stands with ⟨node, reached, awaits⟩ | answered
  · exact stands_of_asks noStubs noState flowed untagged noLocals outermost reached
      (Node.asks_of_awaits awaits) steady
  · exact .inr
      (isAnswered_of_pass noStubs noState flowed untagged noLocals outermost answered steady)

end

/-! ### Runs -/

/-- All passes of a run leave an answer true. -/
def steadyWithin (engine : Engine) (deeper : Deeper) (s : Setting) (r : Reference)
    (place : List String) (q : Query) : (passes : Nat) → Node → World → Bool
  | 0, _, _ => true
  | passes + 1, root, world =>
    match pass engine deeper s root world with
    | none => true
    | some (next, middle) =>
      isSteady engine s r place q root next &&
        (next.same root || steadyWithin engine deeper s r place q passes next middle)

section

variable {engine : Engine} {deeper : Deeper} {s : Setting} {r : Reference} {place : List String}
  {q : Query} {passes : Nat} {root tree : Node} {world world' : World}
  (noStubs : s.stubs = []) (noState : s.state = none) (untagged : r.tag = none)
  (noLocals : s.locals = []) (outermost : s.outer = none)

include noStubs noState untagged noLocals outermost

/-- In the tree that a steady run settles on, the field asks still, or it has the answer of the
tree. -/
theorem stands_of_settleWithin (stands : Stands engine s r place q root)
    (settles : settleWithin engine deeper s passes root world = some (some tree, world'))
    (steady : steadyWithin engine deeper s r place q passes root world = true) :
    Stands engine s r place q tree := by
  induction passes generalizing root world with
  | zero => cases settles
  | succ passes ih =>
    rw [settleWithin] at settles
    obtain ⟨next, middle, flowed, rest⟩ := Run.eq_of_bind settles
    rw [steadyWithin, flowed] at steady
    simp only [Bool.and_eq_true, Bool.or_eq_true] at steady
    obtain ⟨quiet, later⟩ := steady
    have here := stands_of_pass noStubs noState flowed untagged noLocals outermost stands quiet
    split at rest
    · cases rest
      exact here
    · next changed => exact ih here rest (later.resolve_left changed)

/-- The first pass reads the field. -/
theorem stands_of_settleWithin_of_asks {written : Node}
    (reached : root.lookup? place engine.defaultKey = some written)
    (asks : written.asks q r = true)
    (settles : settleWithin engine deeper s passes root world = some (some tree, world'))
    (steady : steadyWithin engine deeper s r place q passes root world = true) :
    Stands engine s r place q tree := by
  cases passes with
  | zero => cases settles
  | succ passes =>
    rw [settleWithin] at settles
    obtain ⟨next, middle, flowed, rest⟩ := Run.eq_of_bind settles
    rw [steadyWithin, flowed] at steady
    simp only [Bool.and_eq_true, Bool.or_eq_true] at steady
    obtain ⟨quiet, later⟩ := steady
    have here :=
      stands_of_asks noStubs noState flowed untagged noLocals outermost reached asks quiet
    split at rest
    · cases rest
      exact here
    · next changed =>
      exact stands_of_settleWithin noStubs noState untagged noLocals outermost here rest
        (later.resolve_left changed)

end

/-- The answer of a query agrees with a tree: a field `defined(r)` is true exactly if the reference has
a value in the tree, and a field `r || d` has the value of the reference if there is one. -/
def Query.Holds (engine : Engine) (s : Setting) (r : Reference) (place : List String) (tree : Node) :
    Query → Prop
  | .defined => ∃ node, tree.lookup? place engine.defaultKey = some node ∧
      node.value = .bool (r.resolve (s.scopeAt tree place) engine.defaultKey true).isOk
  | .orElse => ∀ resolved, r.resolve (s.scopeAt tree place) engine.defaultKey false = .ok resolved →
      ∃ node, tree.lookup? place engine.defaultKey = some node ∧ node.value = resolved.value

theorem IsAnswered.holds {engine : Engine} {s : Setting} {r : Reference} {place : List String}
    {tree : Node} {q : Query} (answered : IsAnswered engine s r place tree q) :
    q.Holds engine s r place tree := by
  cases q with
  | defined =>
    obtain ⟨node, reached, -, value, -⟩ := answered
    exact ⟨node, reached, value⟩
  | orElse =>
    intro resolved resolves
    rcases answered with ⟨node, reached, -, same⟩ | ⟨info, absent⟩
    · rw [same] at resolves
      cases resolves
      exact ⟨node, reached, rfl⟩
    · rw [(resolve_error_iff _).mpr absent] at resolves
      cases resolves

/-- The setting in which the next document flows, without stubs and without a state document. -/
def World.flowSetting (world : World) : Setting := cascadeSetting ⟨world.documents, []⟩ [] none

/-- The world in which the passes of the next document begin. -/
def World.opened (world : World) : World := { world with documents := world.documents + 1 }

/-- A document flows with nothing unresolved, a place in it asks for a reference, and the passes leave
the answer true. -/
def flowsSteadily (engine : Engine) (template : Node) (q : Query) (r : Reference)
    (place : List String) : Option Bool := do
  let (answer, _) ← (engine.apply template [] none).run {}
  let outcome ← answer.toOption
  let written ← template.lookup? place engine.defaultKey
  return outcome.unresolved.isNone && written.asks q r &&
    steadyWithin engine (engine.below 0) (World.flowSetting {}) r place q engine.maxPasses template
      (World.opened {})

theorem exists_of_flowsSteadily {engine : Engine} {template : Node} {q : Query} {r : Reference}
    {place : List String} (steady : flowsSteadily engine template q r place = some true) :
    ∃ outcome world' written, (engine.apply template [] none).run {} = some (.ok outcome, world') ∧
      outcome.unresolved = none ∧ template.lookup? place engine.defaultKey = some written ∧
      written.asks q r = true ∧
      steadyWithin engine (engine.below 0) (World.flowSetting {}) r place q engine.maxPasses template
        (World.opened {}) = true := by
  obtain ⟨⟨answer, world'⟩, ran, rest⟩ := Option.bind_eq_some_iff.mp steady
  obtain ⟨outcome, succeeded, rest⟩ := Option.bind_eq_some_iff.mp rest
  obtain ⟨written, stands, rest⟩ := Option.bind_eq_some_iff.mp rest
  have succeeds : answer = .ok outcome := by
    cases answer with
    | error failure => cases succeeded
    | ok made => exact congrArg Except.ok (Option.some.inj succeeded)
  have known := Option.some.inj rest
  rw [Bool.and_eq_true, Bool.and_eq_true, Option.isNone_iff_eq_none] at known
  exact ⟨outcome, world', written, succeeds ▸ ran, known.1.1, stands, known.1.2, known.2⟩

/-- A map that a directive fills while the fields that ask for it wait, and a map in which they find
nothing. -/
def waitingDocument : Node :=
  .ofJson "template" (.object [("a", .string "(( b ))"), ("b", .object [("<<", .string "(( c ))")]),
    ("c", .object [("x", .int 1)]), ("d", .string "(( defined(a.x) ))"),
    ("e", .string "(( a.x || 7 ))"), ("f", .string "(( defined(c.y) ))")])

/-- A document flows with nothing unresolved, and the answer at a place contradicts the final tree. -/
def Contradicts (engine : Engine) (template : Node) (q : Query) (r : Reference)
    (place : List String) : Prop :=
  ∃ outcome world' written tree,
    (engine.apply template [] none).run {} = some (.ok outcome, world') ∧
    outcome.unresolved = none ∧ template.lookup? place engine.defaultKey = some written ∧
    written.asks q r = true ∧
    settle engine (engine.below 0) (World.flowSetting {}) template (World.opened {}) =
      some (some tree, world') ∧
    outcome.document = finalDocument tree ∧ ¬ q.Holds engine (World.flowSetting {}) r place tree

/-- The answer at a place is not that of the tree: `defined` has another truth value, or the number
is another one. -/
def Query.differs (engine : Engine) (s : Setting) (r : Reference) (place : List String) (tree : Node)
    (q : Query) : Bool :=
  (tree.lookup? place engine.defaultKey).any fun node =>
    match q, r.resolve (s.scopeAt tree place) engine.defaultKey q.asItIs with
    | .defined, resolved => node.value.isTruthy != resolved.isOk
    | .orElse, .ok resolved => node.value.asInt? != resolved.value.asInt?
    | .orElse, .error _ => false

theorem Query.not_holds_of_differs {engine : Engine} {s : Setting} {r : Reference}
    {place : List String} {tree : Node} {q : Query}
    (differs : q.differs engine s r place tree = true) : ¬ q.Holds engine s r place tree := by
  obtain ⟨node, reached, other⟩ := (Option.any_eq_true _ _).mp differs
  intro holds
  cases q with
  | defined =>
    obtain ⟨same, known, value⟩ := holds
    rw [reached] at known
    cases known
    rw [value] at other
    simp [Value.isTruthy, Query.asItIs] at other
  | orElse =>
    simp only [Query.asItIs] at other
    cases resolves : r.resolve (s.scopeAt tree place) engine.defaultKey false with
    | error u =>
      rw [resolves] at other
      cases other
    | ok resolved =>
      rw [resolves] at other
      obtain ⟨same, known, value⟩ := holds resolved resolves
      rw [reached] at known
      cases known
      rw [value] at other
      simp at other

/-- A document flows with nothing unresolved, and the answer at a place differs from the final
tree. -/
def flowsToOther (engine : Engine) (template : Node) (q : Query) (r : Reference)
    (place : List String) : Option Bool := do
  let (answer, _) ← (engine.apply template [] none).run {}
  let outcome ← answer.toOption
  let written ← template.lookup? place engine.defaultKey
  let (settled, _) ← settle engine (engine.below 0) (World.flowSetting {}) template (World.opened {})
  let tree ← settled
  return outcome.unresolved.isNone && written.asks q r &&
    q.differs engine (World.flowSetting {}) r place tree

theorem contradicts_of_flowsToOther {engine : Engine} {template : Node} {q : Query} {r : Reference}
    {place : List String} (other : flowsToOther engine template q r place = some true) :
    Contradicts engine template q r place := by
  obtain ⟨⟨answer, world'⟩, ran, rest⟩ := Option.bind_eq_some_iff.mp other
  obtain ⟨outcome, succeeded, rest⟩ := Option.bind_eq_some_iff.mp rest
  obtain ⟨written, stands, rest⟩ := Option.bind_eq_some_iff.mp rest
  obtain ⟨⟨settled, last⟩, settles, rest⟩ := Option.bind_eq_some_iff.mp rest
  obtain ⟨tree, made, rest⟩ := Option.bind_eq_some_iff.mp rest
  have succeeds : answer = .ok outcome := by
    cases answer with
    | error failure => cases succeeded
    | ok made => exact congrArg Except.ok (Option.some.inj succeeded)
  have known := Option.some.inj rest
  rw [Bool.and_eq_true, Bool.and_eq_true, Option.isNone_iff_eq_none] at known
  rw [succeeds] at ran
  subst made
  obtain ⟨same, again, finished⟩ := settle_of_applyPrepared ran
  obtain ⟨document, -⟩ := Engine.eq_of_outcomeOfTree finished
  have once : some (some tree, last) = some (some same, world') := settles.symm.trans again
  cases once
  exact ⟨outcome, _, written, tree, ran, known.1.1, stands, known.1.2, settles, document,
    Query.not_holds_of_differs known.2⟩

/-- A map whose directive is pending when it is asked for a name. -/
def fillingDocument : Node :=
  .ofJson "template" (.object [("a", .object [("<<", .string "(( b ))")]),
    ("b", .object [("x", .int 1)]), ("d", .string "(( defined(a.x) ))"),
    ("e", .string "(( a.x || 7 ))")])

/-- A list that loses an entry after it is asked for the last one. -/
def shrinkingDocument : Node :=
  .ofJson "template" (.object [
    ("l", .array [.int 1, .string "(( ~~ ))", .int 2]), ("d", .string "(( defined(l.[2]) ))")])

/-- A list whose entry gets its name after it is asked for it. -/
def namingDocument : Node :=
  .ofJson "template" (.object [
    ("l", .array [.object [("name", .string "(( n ))"), ("v", .int 1)]]), ("n", .string "a"),
    ("d", .string "(( defined(l.a.v) ))")])

end Cascade