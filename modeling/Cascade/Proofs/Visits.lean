import Cascade.Flow.Settle
import Cascade.Proofs.Embedded
import Cascade.Proofs.PassSteps

/-!
# Following a path through a pass

A pass comes to every node with a binding and with the word whether stubs override it. Along a path
through containers whose shape is closed, and which keep their entries, the node at the end of the
path is flowed on its own, and what the pass makes of it stands at the same path again.

## Main definitions

* `Visit`: a node as a pass comes to it.
* `Visit.child?`, `Visit.follow?`: the visit of a child, and that at the end of a path.
* `keepsShape`: a container keeps the number and the names of its entries.
* `isCalm`: neither a control nor a stub changes the node or a node in it.

## Main statements

* `flowNode_of_calm`: a resolved calm node is flowed to itself.
* `Visit.flow_of_follow`: the node at the end of a path is flowed on its own.
-/

namespace Cascade

/-- A node as a pass comes to it. -/
structure Visit where
  node : Node
  binding : Binding
  /-- Stubs override the node. -/
  overridable : Bool

/-- The position of the list entry that a segment names. -/
def Path.position? (items : List Node) (segment key : String) : Option Nat :=
  match Path.parseIndex? segment with
  | some index => Path.resolveIndex? items.length index
  | none => items.findIdx? fun entry => entry.identity? key == some segment

section

variable (defaultKey : String)

/-- The visit of the child that a segment names, if the shape of the container is closed and no stub
overrides the container. -/
def Visit.child? (v : Visit) (segment : String) : Option Visit :=
  let inner := v.overridable && !v.node.annotations.blocksOverride
  match v.node.value with
  | .map fields =>
    if segment = directiveKey || shapeIsOpen fields ||
        (v.overridable && (mapOverride? defaultKey v.node v.binding).isSome) then none
    else (Fields.find? fields segment).map fun child =>
      ⟨child, (v.binding.inside v.node.annotations).child segment, inner⟩
  | .list items =>
    let key := v.node.annotations.listKey defaultKey
    if (items.any fun entry => entry.listDirective?.isSome) ||
        (v.overridable && !v.node.annotations.expanded &&
          (stubOverride? defaultKey v.node v.binding).isSome) then none
    else do
      let index ← Path.position? items segment key
      let entry ← items[index]?
      return ⟨entry, v.binding.entry (entry.entrySegment index key) key, inner⟩
  | _ => none

/-- A map is still a map; a list is still a list with entries of the same identities. -/
def keepsShape (before after : Node) : Bool :=
  match before.value, after.value with
  | .map _, .map _ => true
  | .list items, .list items' =>
    let key := before.annotations.listKey defaultKey
    items.map (Node.identity? · key) == items'.map (Node.identity? · key)
  | _, _ => false

/-- The visit at the end of a path, if all containers on the way keep their shape in the pass.
`after` is what the pass makes of the node. -/
def Visit.follow? : (v : Visit) → (after : Option Node) → List String → Option Visit
  | v, _, [] => some v
  | v, after, segment :: rest => do
    let child ← v.child? defaultKey segment
    let later ← after
    if keepsShape defaultKey v.node later then
      child.follow? (later.step? segment defaultKey) rest
    else none

mutual

/-- Neither a control nor a stub changes the node or a node in it. -/
def isCalm : (node : Node) → Binding → (overridable : Bool) → Bool
  | node@⟨value, annotations, _⟩, b, overridable =>
    let inner := overridable && !annotations.blocksOverride
    match value with
    | .map fields =>
      (controlNames fields).isEmpty &&
        !(overridable && (mapOverride? defaultKey node b).isSome) &&
        fieldsCalm fields (b.inside annotations) inner
    | .list items =>
      !(overridable && !annotations.expanded && (stubOverride? defaultKey node b).isSome) &&
        itemsCalm (annotations.listKey defaultKey) 0 items b inner
    | _ => !(overridable && (stubOverride? defaultKey node b).isSome)

/-- Neither a control nor a stub changes the fields of a map. -/
def fieldsCalm : List (String × Node) → Binding → (overridable : Bool) → Bool
  | [], _, _ => true
  | (key, child) :: rest, b, overridable =>
    (key = directiveKey || isCalm child (b.child key) overridable) &&
      fieldsCalm rest b overridable

/-- Neither a control nor a stub changes the entries of a list from an index on. -/
def itemsCalm (key : String) : (index : Nat) → List Node → Binding → (overridable : Bool) → Bool
  | _, [], _, _ => true
  | index, entry :: rest, b, overridable =>
    isCalm entry (b.entry (entry.entrySegment index key) key) overridable &&
      itemsCalm key (index + 1) rest b overridable

end

end

/-! ### Resolved trees -/

theorem allResolved_iff {items : List Node} :
    Node.allResolved items = true ↔ ∀ item ∈ items, item.isResolved = true := by
  induction items with
  | nil => simp [Node.allResolved]
  | cons item rest ih =>
    rw [Node.allResolved, Bool.and_eq_true, ih]
    simp

theorem allFieldsResolved_iff {fields : Fields Node} :
    Node.allFieldsResolved fields = true ↔ ∀ field ∈ fields, field.2.isResolved = true := by
  induction fields with
  | nil => simp [Node.allFieldsResolved]
  | cons field rest ih =>
    rw [Node.allFieldsResolved, Bool.and_eq_true, ih]
    simp

/-- A resolved node carries no diagnostic, and its value is resolved. -/
theorem Node.isResolved_iff {node : Node} : node.isResolved = true ↔
    node.annotations.clearIssue = node.annotations ∧ Node.valueResolved node.value = true := by
  obtain ⟨value, annotations, source⟩ := node
  have clear : annotations.clearIssue = annotations ↔ annotations.hasError = false ∧
      annotations.failed = false ∧ annotations.issue = none := by
    constructor
    · intro same
      rw [← same]
      exact ⟨rfl, rfl, rfl⟩
    · rintro ⟨noError, notFailed, noIssue⟩
      cases annotations
      simp_all [Annotations.clearIssue]
  rw [clear]
  simp [Node.isResolved, and_assoc]

theorem Node.expr?_of_resolved {node : Node} (resolved : node.isResolved = true) :
    node.expr? = none := by
  have whole := (Node.isResolved_iff.mp resolved).2
  obtain ⟨value, annotations, source⟩ := node
  cases value with
  | expression e => simp [Node.valueResolved] at whole
  | string text =>
    unfold Node.expr?
    simp only
    split
    · next e reads =>
      have unread : Embedded.isUnread text = true :=
        Embedded.isUnread_iff_classify.mpr (.inl ⟨e, reads⟩)
      simp [Node.valueResolved, unread] at whole
    · rfl
  | _ => rfl

theorem Node.listDirective?_of_resolved {entry : Node} (resolved : entry.isResolved = true) :
    entry.listDirective? = none := by
  have parts := (Node.isResolved_iff.mp resolved).2
  unfold Node.listDirective?
  split
  · next key directive shape =>
    rw [shape, Node.valueResolved, allFieldsResolved_iff] at parts
    split
    · exact Node.expr?_of_resolved (parts _ List.mem_cons_self)
    · rfl
  · rfl

/-! ### Calm trees -/

theorem isCalm_of_mem_fields {defaultKey key : String} {fields : Fields Node} {child : Node}
    {b : Binding} {overridable : Bool}
    (calm : fieldsCalm defaultKey fields b overridable = true) (member : (key, child) ∈ fields)
    (ordinary : key ≠ directiveKey) :
    isCalm defaultKey child (b.child key) overridable = true := by
  induction fields with
  | nil => cases member
  | cons field rest ih =>
    rw [fieldsCalm, Bool.and_eq_true, Bool.or_eq_true, decide_eq_true_eq] at calm
    rcases List.mem_cons.mp member with rfl | later
    · exact calm.1.resolve_left ordinary
    · exact ih calm.2 later

section

variable {below : FlowBelow} {b : Binding} {overridable : Bool} {world world' : World}

/-- Fields that are flowed to themselves leave the map as it is. -/
theorem flowFields_of_each {fields flowed : Fields Node}
    (each : ∀ key child, (key, child) ∈ fields → key ≠ directiveKey → ∀ before after result,
      below child (b.child key) overridable before = some (result, after) → result = some child)
    (yields : flowFields below b overridable fields world = some (flowed, world')) :
    flowed = fields := by
  induction fields generalizing flowed world with
  | nil =>
    cases yields
    rfl
  | cons field rest ih =>
    obtain ⟨key, child⟩ := field
    obtain ⟨first, others, middle, start, later, rfl⟩ := flowFields_cons yields
    have same : first = some child := by
      split at start
      · cases start
        rfl
      · next ordinary => exact each key child List.mem_cons_self ordinary _ _ _ start
    rw [same, ih (fun key child member => each key child (List.mem_cons_of_mem _ member)) later]
    rfl

/-- Entries that are flowed to themselves leave the list as it is. -/
theorem flowEntries_of_each {key : String} {index : Nat} {items flowed : List Node}
    (plain : ∀ item ∈ items, item.listDirective? = none)
    (each : ∀ position entry, items[position]? = some entry → ∀ before after result,
      below entry (b.entry (entry.entrySegment (index + position) key) key) overridable before =
        some (result, after) → result = some entry)
    (yields : flowEntries below key b overridable index items world = some (flowed, world')) :
    flowed = items := by
  induction items generalizing flowed world index with
  | nil =>
    cases yields
    rfl
  | cons entry rest ih =>
    obtain ⟨first, others, middle, start, later, rfl⟩ :=
      flowEntries_cons (plain entry List.mem_cons_self) yields
    have same : first = some entry := each 0 entry rfl _ _ _ start
    have unchanged : others = rest := by
      refine ih (fun item member => plain item (List.mem_cons_of_mem _ member)) ?_ later
      intro position next found before after result flows
      refine each (position + 1) next found before after result ?_
      rw [show index + (position + 1) = index + 1 + position by omega]
      exact flows
    rw [same, unchanged]
    rfl

end

theorem isCalm_of_getElem?_items {defaultKey key : String} {index position : Nat}
    {items : List Node} {entry : Node} {b : Binding} {overridable : Bool}
    (calm : itemsCalm defaultKey key index items b overridable = true)
    (found : items[position]? = some entry) :
    isCalm defaultKey entry (b.entry (entry.entrySegment (index + position) key) key)
      overridable = true := by
  induction items generalizing index position with
  | nil => cases found
  | cons first rest ih =>
    rw [itemsCalm, Bool.and_eq_true] at calm
    cases position with
    | zero =>
      cases found
      exact calm.1
    | succ position =>
      have later := ih calm.2 found
      rw [show index + (position + 1) = index + 1 + position by omega]
      exact later

/-- A resolved node that neither a control nor a stub changes is flowed to itself. -/
theorem flowNode_of_calm {engine : Engine} {deeper : Deeper} {node : Node} {b : Binding}
    {allowed overridable : Bool} {fuel : Nat} {result : Option Node} {world world' : World}
    (resolved : node.isResolved = true) (noState : b.document.state = none)
    (calm : isCalm engine.defaultKey node b allowed = true)
    (within : overridable = true → allowed = true)
    (flows : flowNode engine deeper fuel node b overridable world = some (result, world')) :
    result = some node := by
  induction node using Node.treeInduction
    generalizing b allowed overridable fuel result world world' with
  | list items annotations source ih =>
    obtain ⟨clear, parts⟩ := Node.isResolved_iff.mp resolved
    rw [Node.valueResolved, allResolved_iff] at parts
    rw [isCalm, Bool.and_eq_true, Bool.not_eq_true'] at calm
    obtain ⟨whole, entries⟩ := calm
    cases fuel with
    | zero => cases flows
    | succ fuel =>
      rw [flowNode] at flows
      have plain : ∀ item ∈ items, item.listDirective? = none := fun item member =>
        Node.listDirective?_of_resolved (parts item member)
      have kept : overridable = true → annotations.expanded = false →
          stubOverride? engine.defaultKey ⟨.list items, annotations, source⟩ b = none := by
        intro asked unexpanded
        simpa [within asked, unexpanded] using whole
      obtain ⟨flowed, yields, rfl⟩ := flowList_of_still kept plain flows
      have unchanged : flowed = items := by
        refine flowEntries_of_each plain ?_ yields
        intro position entry found before after result below
        have member : entry ∈ items := List.mem_of_getElem? found
        have inside := isCalm_of_getElem?_items entries found
        refine ih entry member (parts entry member) ?_ inside ?_ below
        · exact noState
        intro asked
        rw [Bool.and_eq_true] at asked ⊢
        exact ⟨within asked.1, asked.2⟩
      rw [unchanged, clear]
  | map fields annotations source ih =>
    obtain ⟨clear, parts⟩ := Node.isResolved_iff.mp resolved
    rw [Node.valueResolved, allFieldsResolved_iff] at parts
    rw [isCalm, Bool.and_eq_true, Bool.and_eq_true, List.isEmpty_iff, Bool.not_eq_true'] at calm
    obtain ⟨⟨noControl, whole⟩, inside⟩ := calm
    cases fuel with
    | zero => cases flows
    | succ fuel =>
      rw [flowNode] at flows
      have kept : overridable = true →
          mapOverride? engine.defaultKey ⟨.map fields, annotations, source⟩ b = none := by
        intro asked
        simpa [within asked] using whole
      have noDirective : (Fields.find? fields directiveKey).bind Node.expr? = none := by
        rw [Option.bind_eq_none_iff]
        intro written found
        exact Node.expr?_of_resolved (parts _ (Fields.mem_of_find? found))
      obtain ⟨flowed, yields, rfl⟩ := flowMap_of_still kept noState noDirective noControl flows
      have unchanged : flowed = fields := by
        refine flowFields_of_each ?_ yields
        intro key child member ordinary before after result below
        have place : ((b.inside annotations).child key).document.state = none := by
          unfold Binding.inside
          split <;> exact noState
        refine ih (key, child) member (parts _ member) place
          (isCalm_of_mem_fields inside member ordinary) ?_ below
        intro asked
        rw [Bool.and_eq_true] at asked ⊢
        exact ⟨within asked.1, asked.2⟩
      rw [unchanged, clear]
  | leaf value annotations source notList notMap =>
    have whole := (Node.isResolved_iff.mp resolved).2
    have still : flowLeaf engine ⟨value, annotations, source⟩ b overridable =
        ⟨value, annotations, source⟩ := by
      unfold flowLeaf
      split
      · next asked =>
        cases value <;> simp_all [isCalm]
      · rfl
    cases fuel with
    | zero => cases flows
    | succ fuel =>
      rw [flowNode] at flows
      cases value with
      | list items => exact absurd rfl (notList items)
      | map fields => exact absurd rfl (notMap fields)
      | expression e => cases whole
      | string text =>
        rw [Node.valueResolved, Bool.not_eq_true'] at whole
        have literal : flowString engine deeper ⟨.string text, annotations, source⟩ text b
            overridable =
              pure (some (flowLeaf engine ⟨.string text, annotations, source⟩ b overridable)) := by
          unfold flowString
          split
          · rfl
          · rfl
          · next e reads =>
            rw [Embedded.isUnread_iff_classify.mpr (.inl ⟨e, reads⟩)] at whole
            cases whole
          · next problem reads =>
            rw [Embedded.isUnread_iff_classify.mpr (.inr ⟨problem, reads⟩)] at whole
            cases whole
        simp only [literal, still] at flows
        cases flows
        rfl
      | _ =>
        cases flows
        exact congrArg some still

/-! ### One step down -/

theorem Path.stepBy?_list (items : List Node) (annotations : Annotations) (source segment key : String) :
    Node.stepBy? ⟨.list items, annotations, source⟩ segment key =
      (Path.position? items segment key).bind (items[·]?) := by
  unfold Node.stepBy? Path.position?
  cases Path.parseIndex? segment with
  | some index => rfl
  | none =>
    simp only
    rw [List.find?_eq_bind_findIdx?_getElem?]

/-- Lists with the same identities name their entries alike. -/
theorem Path.position?_of_identities {items items' : List Node} {segment key : String}
    (same : items.map (Node.identity? · key) = items'.map (Node.identity? · key)) :
    Path.position? items segment key = Path.position? items' segment key := by
  have long : items.length = items'.length := by
    rw [← List.length_map (Node.identity? · key), same, List.length_map]
  have alike : ∀ list : List Node,
      (list.findIdx? fun entry => entry.identity? key == some segment) =
        (list.map (Node.identity? · key)).findIdx? fun name => name == some segment := by
    intro list
    rw [List.findIdx?_map]
    rfl
  unfold Path.position?
  rw [long, alike items, alike items', same]

section

variable {below : FlowBelow} {b : Binding} {overridable : Bool} {world world' : World}

/-- A flowed field is found under its key again. -/
theorem find?_flowFields {key : String} {child : Node} {fields flowed : Fields Node}
    (ordinary : key ≠ directiveKey) (found : Fields.find? fields key = some child)
    (yields : flowFields below b overridable fields world = some (flowed, world')) :
    ∃ before after result,
      below child (b.child key) overridable before = some (result, after) ∧
      ∀ c, result = some c → Fields.find? flowed key = some c := by
  induction fields generalizing flowed world with
  | nil => cases found
  | cons field rest ih =>
    obtain ⟨name, first⟩ := field
    obtain ⟨result, others, middle, start, later, rfl⟩ := flowFields_cons yields
    rw [Fields.find?_cons] at found
    split at found
    · next same =>
      cases found
      subst same
      rw [if_neg ordinary] at start
      refine ⟨world, middle, result, start, ?_⟩
      rintro c rfl
      simp [Fields.find?_cons]
    · next differs =>
      obtain ⟨before, after, last, flows, stands⟩ := ih found later
      refine ⟨before, after, last, flows, ?_⟩
      intro c yielded
      cases result with
      | none => exact stands c yielded
      | some _ =>
        simp only [Option.map_some, Option.toList_some, List.cons_append, List.nil_append]
        rw [Fields.find?_cons, if_neg differs]
        exact stands c yielded

/-- If no entry is removed, a flowed entry stands at its position again. -/
theorem getElem?_flowEntries {key : String} {index position : Nat} {entry : Node}
    {items flowed : List Node} (plain : ∀ item ∈ items, item.listDirective? = none)
    (found : items[position]? = some entry)
    (yields : flowEntries below key b overridable index items world = some (flowed, world'))
    (long : flowed.length = items.length) :
    ∃ before after result,
      below entry (b.entry (entry.entrySegment (index + position) key) key) overridable before =
        some (result, after) ∧ flowed[position]? = result := by
  induction items generalizing flowed world index position with
  | nil => cases found
  | cons first rest ih =>
    have others := fun item member => plain item (List.mem_cons_of_mem first member)
    obtain ⟨result, flowedRest, middle, start, later, rfl⟩ :=
      flowEntries_cons (plain first List.mem_cons_self) yields
    have shorter := length_flowEntries others later
    cases result with
    | none =>
      simp only [Option.toList_none, List.nil_append, List.length_cons] at long
      omega
    | some head =>
      simp only [Option.toList_some, List.cons_append, List.nil_append, List.length_cons,
        Nat.add_right_cancel_iff] at long
      cases position with
      | zero =>
        cases found
        exact ⟨world, middle, some head, start, rfl⟩
      | succ position =>
        obtain ⟨before, after, last, flows, stands⟩ := ih others found later long
        rw [show index + (position + 1) = index + 1 + position by omega]
        exact ⟨before, after, last, flows, stands⟩

end

section

variable {engine : Engine} {deeper : Deeper} {fuel : Nat} {overridable : Bool}
  {result : Option Node} {world world' : World}

/-- A container whose shape is closed is not removed. If it keeps its shape, references may lead
through it, and the child that a segment names is flowed at its own visit. -/
theorem Visit.flow_of_child {v child : Visit} {segment : String}
    (down : v.child? engine.defaultKey segment = some child)
    (noState : v.binding.document.state = none)
    (within : overridable = true → v.overridable = true)
    (flows : flowNode engine deeper fuel v.node v.binding overridable world =
      some (result, world')) :
    ∃ later, result = some later ∧ (keepsShape engine.defaultKey v.node later = true →
      (∀ name, checkAvailable name later = .ok ()) ∧
      ∃ fuel' inner before after flowed, (inner = true → child.overridable = true) ∧
        flowNode engine deeper fuel' child.node child.binding inner before =
          some (flowed, after) ∧
        ∀ c, flowed = some c → later.step? segment engine.defaultKey = some c) := by
  obtain ⟨⟨value, annotations, source⟩, b, allowed⟩ := v
  cases fuel with
  | zero => cases flows
  | succ fuel =>
    rw [flowNode] at flows
    cases value with
    | map fields =>
      simp only [Visit.child?] at down
      split at down
      · cases down
      · next open_ =>
        simp only [Bool.or_eq_true, decide_eq_true_eq, not_or, Bool.not_eq_true] at open_
        obtain ⟨⟨ordinary, closed⟩, whole⟩ := open_
        obtain ⟨written, found, rfl⟩ := Option.map_eq_some_iff.mp down
        have kept : overridable = true →
            mapOverride? engine.defaultKey ⟨.map fields, annotations, source⟩ b = none := by
          intro asked
          have permitted : allowed = true := within asked
          simpa [permitted] using whole
        rcases flowMap_of_closed kept noState closed flows with
          ⟨own, flowed, left, inner, middle, fieldwise, narrower, keeps, noError, notFailed, rfl⟩ |
          ⟨other, rfl, notMap⟩
        · refine ⟨_, rfl, fun _ => ⟨?_, ?_⟩⟩
          · intro name
            simp [checkAvailable, noError, notFailed]
          · obtain ⟨before, after, last, below, stands⟩ :=
              find?_flowFields ordinary (keeps segment written ordinary found) fieldwise
            refine ⟨fuel, inner, before, after, last, ?_, below, stands⟩
            intro asked
            have narrow := narrower asked
            rw [Bool.and_eq_true] at narrow ⊢
            exact ⟨within narrow.1, narrow.2⟩
        · refine ⟨other, rfl, fun shape => ?_⟩
          unfold keepsShape at shape
          split at shape
          · next _ _ same => exact absurd same (notMap _)
          · next same _ => cases same
          · cases shape
    | list items =>
      simp only [Visit.child?] at down
      split at down
      · cases down
      · next open_ =>
        simp only [Bool.or_eq_true, not_or, Bool.not_eq_true, List.any_eq_false] at open_
        obtain ⟨shut, whole⟩ := open_
        have plain : ∀ item ∈ items, item.listDirective? = none := by
          intro item member
          simpa using shut item member
        obtain ⟨position, named, rest⟩ := Option.bind_eq_some_iff.mp down
        obtain ⟨entry, found, made⟩ := Option.bind_eq_some_iff.mp rest
        cases made
        have kept : overridable = true → annotations.expanded = false →
            stubOverride? engine.defaultKey ⟨.list items, annotations, source⟩ b = none := by
          intro asked unexpanded
          have permitted : allowed = true := within asked
          simpa [permitted, unexpanded] using whole
        obtain ⟨flowed, yields, rfl⟩ := flowList_of_still kept plain flows
        refine ⟨_, rfl, fun shape => ⟨fun name => rfl, ?_⟩⟩
        have same : items.map (Node.identity? · (annotations.listKey engine.defaultKey)) =
            flowed.map (Node.identity? · (annotations.listKey engine.defaultKey)) := by
          simpa [keepsShape] using shape
        have long : flowed.length = items.length := by
          rw [← List.length_map (Node.identity? · (annotations.listKey engine.defaultKey)), ← same,
            List.length_map]
        obtain ⟨before, after, last, below, stands⟩ :=
          getElem?_flowEntries plain found yields long
        rw [Nat.zero_add] at below
        refine ⟨fuel, _, before, after, last, ?_, below, ?_⟩
        · intro asked
          rw [Bool.and_eq_true] at asked ⊢
          exact ⟨within asked.1, asked.2⟩
        · rintro c rfl
          have again : Path.position? items segment (annotations.listKey engine.defaultKey) =
              Path.position? flowed segment (annotations.listKey engine.defaultKey) :=
            Path.position?_of_identities same
          have key : Node.keyName ⟨.list flowed, annotations.clearIssue, source⟩ engine.defaultKey =
              annotations.listKey engine.defaultKey := rfl
          rw [Node.step?, key, Path.stepBy?_list, ← again, named, Option.bind_some, stands]
    | _ => cases down

/-- The visit of a child is one of the same document, in the same outer scopes. -/
theorem Visit.scope_of_child {defaultKey segment : String} {v child : Visit}
    (down : v.child? defaultKey segment = some child) :
    ∃ name, child.binding.scope =
      { v.binding.scope with anchor := v.binding.scope.anchor ++ [name] } := by
  obtain ⟨⟨value, annotations, source⟩, b, allowed⟩ := v
  cases value with
  | map fields =>
    simp only [Visit.child?] at down
    split at down
    · cases down
    · obtain ⟨written, -, rfl⟩ := Option.map_eq_some_iff.mp down
      refine ⟨segment, ?_⟩
      unfold Binding.inside
      split <;> rfl
  | list items =>
    simp only [Visit.child?] at down
    split at down
    · cases down
    · obtain ⟨position, -, rest⟩ := Option.bind_eq_some_iff.mp down
      obtain ⟨entry, -, made⟩ := Option.bind_eq_some_iff.mp rest
      cases made
      exact ⟨_, rfl⟩
  | _ => cases down

/-- The child that is visited is the one that the segment names. -/
theorem Visit.step_of_child {defaultKey segment : String} {v child : Visit}
    (down : v.child? defaultKey segment = some child) :
    v.node.step? segment defaultKey = some child.node := by
  obtain ⟨⟨value, annotations, source⟩, b, allowed⟩ := v
  cases value with
  | map fields =>
    simp only [Visit.child?] at down
    split at down
    · cases down
    · obtain ⟨written, found, rfl⟩ := Option.map_eq_some_iff.mp down
      exact found
  | list items =>
    simp only [Visit.child?] at down
    split at down
    · cases down
    · obtain ⟨position, named, rest⟩ := Option.bind_eq_some_iff.mp down
      obtain ⟨entry, found, made⟩ := Option.bind_eq_some_iff.mp rest
      cases made
      have key : Node.keyName ⟨.list items, annotations, source⟩ defaultKey =
          annotations.listKey defaultKey := rfl
      rw [Node.step?, key, Path.stepBy?_list, named, Option.bind_some, found]
  | _ => cases down

theorem Visit.document_of_child {defaultKey segment : String} {v child : Visit}
    (down : v.child? defaultKey segment = some child) :
    child.binding.document = v.binding.document := by
  obtain ⟨name, scope⟩ := Visit.scope_of_child down
  rw [Binding.document, scope]
  rfl

/-! ### Along a path -/

theorem walkPath_of_cons {defaultKey segment : String} {node next : Node} {seen : List String}
    {rest : List String} (available : ∀ name, checkAvailable name node = .ok ())
    (found : node.step? segment defaultKey = some next) :
    walkPath defaultKey node seen (segment :: rest) =
      walkPath defaultKey next (seen ++ [segment]) rest := by
  rw [walkPath, available, found]
  rfl

/-- The node at the end of a path is flowed at its own visit. References that take the path find
what the pass makes of it. -/
theorem Visit.flow_of_follow {v last : Visit} {path : List String}
    (way : v.follow? engine.defaultKey result path = some last)
    (noState : v.binding.document.state = none)
    (within : overridable = true → v.overridable = true)
    (flows : flowNode engine deeper fuel v.node v.binding overridable world =
      some (result, world')) :
    ∃ fuel' inner before after flowed, (inner = true → last.overridable = true) ∧
      flowNode engine deeper fuel' last.node last.binding inner before = some (flowed, after) ∧
      ∀ c, flowed = some c → ∃ later, result = some later ∧
        ∀ seen, walkPath engine.defaultKey later seen path = .ok c := by
  induction path generalizing v overridable fuel result world world' with
  | nil =>
    cases way
    exact ⟨fuel, overridable, world, world', result, within, flows, fun c made => ⟨c, made, fun _ => rfl⟩⟩
  | cons segment rest ih =>
    rw [Visit.follow?] at way
    obtain ⟨child, down, way⟩ := Option.bind_eq_some_iff.mp way
    obtain ⟨later, made, way⟩ := Option.bind_eq_some_iff.mp way
    obtain ⟨kept, same, go⟩ := Visit.flow_of_child down noState within flows
    rw [made, Option.some.injEq] at same
    subst same
    split at way
    · next shape =>
      obtain ⟨available, fuel', inner, before, after, flowed, narrower, below, stands⟩ := go shape
      have state : child.binding.document.state = none :=
        (congrArg Document.state (Visit.document_of_child down)).trans noState
      have again : child.follow? engine.defaultKey flowed rest = some last := by
        cases rest with
        | nil => exact way
        | cons next others =>
          -- A child that the path leads through is not removed, so it is the one found again.
          have ⟨grandchild, further, _⟩ := Option.bind_eq_some_iff.mp way
          obtain ⟨c, yielded, -⟩ := Visit.flow_of_child further state narrower below
          rw [yielded, ← stands c yielded]
          exact way
      obtain ⟨fuel'', innermost, start, stop, final, narrowest, flowsLast, leads⟩ :=
        ih again state narrower below
      refine ⟨fuel'', innermost, start, stop, final, narrowest, flowsLast, ?_⟩
      intro c made'
      obtain ⟨next, yielded, walks⟩ := leads c made'
      refine ⟨later, made, fun seen => ?_⟩
      rw [walkPath_of_cons available (stands next yielded)]
      exact walks _
    · cases way

end

/-- The node that is visited at the end of a path is the one at that path. -/
theorem Visit.lookup_of_follow {defaultKey : String} {v last : Visit} {after : Option Node}
    {path : List String} (way : v.follow? defaultKey after path = some last) :
    v.node.lookup? path defaultKey = some last.node := by
  induction path generalizing v after with
  | nil =>
    cases way
    rfl
  | cons segment rest ih =>
    obtain ⟨child, down, way⟩ := Option.bind_eq_some_iff.mp way
    obtain ⟨later, -, way⟩ := Option.bind_eq_some_iff.mp way
    split at way
    · rw [Node.lookup?_cons, Visit.step_of_child down]
      exact ih way
    · cases way

/-- A path that goes on after a node is followed from the visit of that node. -/
theorem Visit.follow_append {defaultKey : String} {v last : Visit} {after : Option Node}
    {path rest : List String} (way : v.follow? defaultKey after (path ++ rest) = some last) :
    ∃ middle, v.follow? defaultKey after path = some middle ∧
      middle.follow? defaultKey (after.bind (·.lookup? path defaultKey)) rest = some last := by
  induction path generalizing v after with
  | nil => exact ⟨v, rfl, by cases after <;> exact way⟩
  | cons segment path ih =>
    obtain ⟨child, down, way⟩ := Option.bind_eq_some_iff.mp way
    obtain ⟨later, found, way⟩ := Option.bind_eq_some_iff.mp way
    split at way
    · next shape =>
      obtain ⟨middle, first, onward⟩ := ih way
      refine ⟨middle, ?_, ?_⟩
      · rw [Visit.follow?, down, found]
        simp only [Option.bind_eq_bind, Option.bind_some, shape, if_true]
        exact first
      · rw [found, Option.bind_some, Node.lookup?_cons]
        exact onward
    · cases way

/-- The visit at the end of a path is one of the same document, in the same outer scopes. -/
theorem Visit.scope_of_follow {defaultKey : String} {v last : Visit} {after : Option Node}
    {path : List String} (way : v.follow? defaultKey after path = some last) :
    ∃ names, last.binding.scope =
      { v.binding.scope with anchor := v.binding.scope.anchor ++ names } := by
  induction path generalizing v after with
  | nil =>
    cases way
    refine ⟨[], ?_⟩
    rw [List.append_nil]
    cases last.binding.scope
    rfl
  | cons segment rest ih =>
    obtain ⟨child, down, way⟩ := Option.bind_eq_some_iff.mp way
    obtain ⟨later, -, way⟩ := Option.bind_eq_some_iff.mp way
    split at way
    · obtain ⟨name, scope⟩ := Visit.scope_of_child down
      obtain ⟨names, same⟩ := ih way
      refine ⟨name :: names, ?_⟩
      rw [same, scope, List.append_assoc, List.singleton_append]
    · cases way

end Cascade
