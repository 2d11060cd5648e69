import Mathlib.Data.List.Basic
import Mathlib.Data.List.TakeWhile
import Cascade.Flow.Apply

/-!
# Documents without expressions

A document that holds no embedded string and no key of a directive or control is data: there is
nothing in it to evaluate. Passes leave data as it is, as long as no stub overrides it, and so does
everything that is done to a settled tree.

## Main definitions

* `Node.isMap`: the node is a map.
* `Node.isDataWith`: data whose annotations are all of a given kind.
* `Node.isPlainData`: data without annotations; `Node.isInert`: data that stubs may have put in;
  `Node.isShown`: data that is the document as it stands.

## Main statements

* `Node.treeInduction`: induction over the containers of a tree.
* `flowNode_inert`: a pass returns inert data unchanged.
* `Node.same_of_data`, `collect_of_shown`, `finalDocument_of_shown`: what a settled tree of data
  yields.
-/

namespace Cascade

/-! ### Trees of containers -/

/-- A statement about nodes holds of a tree if it passes from the entries of a list to the list and
from the fields of a map to the map. -/
theorem Node.treeInduction {P : Node → Prop}
    (list : ∀ items annotations source, (∀ item ∈ items, P item) →
      P ⟨.list items, annotations, source⟩)
    (map : ∀ fields annotations source, (∀ field ∈ fields, P field.2) →
      P ⟨.map fields, annotations, source⟩)
    (leaf : ∀ value annotations source, (∀ items, value ≠ .list items) →
      (∀ fields, value ≠ .map fields) → P ⟨value, annotations, source⟩) :
    ∀ node, P node
  | ⟨.list items, annotations, source⟩ =>
    list items annotations source fun item member =>
      have := List.sizeOf_lt_of_mem member
      Node.treeInduction list map leaf item
  | ⟨.map fields, annotations, source⟩ =>
    map fields annotations source fun (key, child) member =>
      have := List.sizeOf_lt_of_mem member
      Node.treeInduction list map leaf child
  | ⟨.nil, _, _⟩ | ⟨.bool _, _, _⟩ | ⟨.int _, _, _⟩ | ⟨.float _, _, _⟩ | ⟨.string _, _, _⟩
  | ⟨.expression _, _, _⟩ | ⟨.lambda _, _, _⟩ | ⟨.template _, _, _⟩ =>
    leaf _ _ _ (by simp) (by simp)
termination_by node => sizeOf node
decreasing_by all_goals simp_all; omega

/-- The node is a map. -/
def Node.isMap (node : Node) : Bool :=
  match node.value with
  | .map _ => true
  | _ => false

theorem Node.isMap_iff {node : Node} : node.isMap = true ↔ ∃ fields, node.value = .map fields := by
  unfold isMap
  split
  · next fields shape => simp [shape]
  · next notMap => simpa using notMap

theorem height_le_itemsHeight {item : Node} {items : List Node} (member : item ∈ items) :
    item.height ≤ itemsHeight items := by
  induction items with
  | nil => cases member
  | cons first rest ih =>
    rw [itemsHeight]
    rcases List.mem_cons.mp member with rfl | later
    · exact Nat.le_max_left _ _
    · exact Nat.le_trans (ih later) (Nat.le_max_right _ _)

theorem height_le_fieldsHeight {field : String × Node} {fields : List (String × Node)}
    (member : field ∈ fields) : field.2.height ≤ fieldsHeight fields := by
  induction fields with
  | nil => cases member
  | cons first rest ih =>
    rw [fieldsHeight]
    rcases List.mem_cons.mp member with rfl | later
    · exact Nat.le_max_left _ _
    · exact Nat.le_trans (ih later) (Nat.le_max_right _ _)

/-! ### Data -/

section

variable (allowed : Annotations → Bool)

mutual

/-- There is nothing to evaluate in the tree, and its annotations are of a given kind. -/
def Node.isDataWith : Node → Bool
  | ⟨value, annotations, _⟩ => allowed annotations && Value.isDataWith value

/-- There is nothing to evaluate in the value. -/
def Value.isDataWith : Value → Bool
  | .string text => (Embedded.inner? text).isNone
  | .list items => itemsAreData items
  | .map fields => fieldsAreData fields
  | .expression _ => false
  | .lambda _ => false
  | .template _ => false
  | _ => true

/-- All items are data. -/
def itemsAreData : List Node → Bool
  | [] => true
  | item :: rest => item.isDataWith && itemsAreData rest

/-- All fields are data, and no key is that of a directive or control. -/
def fieldsAreData : List (String × Node) → Bool
  | [] => true
  | (key, child) :: rest =>
    (controlSuffix? key).isNone && child.isDataWith && fieldsAreData rest

end

theorem itemsAreData_iff {items : List Node} :
    itemsAreData allowed items = true ↔ ∀ item ∈ items, item.isDataWith allowed = true := by
  induction items with
  | nil => simp [itemsAreData]
  | cons item rest ih => simp [itemsAreData, ih]

theorem fieldsAreData_iff {fields : List (String × Node)} :
    fieldsAreData allowed fields = true ↔
      ∀ field ∈ fields, controlSuffix? field.1 = none ∧ field.2.isDataWith allowed = true := by
  induction fields with
  | nil => simp [fieldsAreData]
  | cons field rest ih => simp [fieldsAreData, ih]

end

/-- No flag or metadata is set but that the value is taken from a stub. -/
def Annotations.isInert (a : Annotations) : Bool := a.isPlain || a == { merged := true }

/-- Data as it is read, without annotations. -/
def Node.isPlainData (node : Node) : Bool := node.isDataWith Annotations.isPlain

/-- Data that passes leave as it is, some of it taken from stubs. -/
def Node.isInert (node : Node) : Bool := node.isDataWith Annotations.isInert

theorem Annotations.eq_of_isPlain {a : Annotations} (plain : a.isPlain = true) : a = {} :=
  eq_of_beq plain

theorem Annotations.eq_of_isInert {a : Annotations} (inert : a.isInert = true) :
    a = {} ∨ a = { merged := true } := by
  rw [Annotations.isInert, Bool.or_eq_true] at inert
  exact inert.imp eq_of_beq eq_of_beq

theorem Annotations.clearIssue_of_isInert {a : Annotations} (inert : a.isInert = true) :
    a.clearIssue = a := by
  rcases eq_of_isInert inert with rfl | rfl <;> rfl

theorem Node.isInert_of_isPlainData {node : Node} (plain : node.isPlainData = true) :
    node.isInert = true := by
  induction node using Node.treeInduction with
  | list items annotations source ih =>
    simp only [isPlainData, isInert, isDataWith, Value.isDataWith, Bool.and_eq_true,
      itemsAreData_iff] at plain ih ⊢
    exact ⟨by simp [Annotations.isInert, plain.1], fun item member =>
      ih item member (plain.2 item member)⟩
  | map fields annotations source ih =>
    simp only [isPlainData, isInert, isDataWith, Value.isDataWith, Bool.and_eq_true,
      fieldsAreData_iff] at plain ih ⊢
    exact ⟨by simp [Annotations.isInert, plain.1], fun field member =>
      ⟨(plain.2 field member).1, ih field member (plain.2 field member).2⟩⟩
  | leaf value annotations source notList notMap =>
    cases value <;> simp_all [isPlainData, isInert, isDataWith, Value.isDataWith,
      Annotations.isInert]

section

variable {allowed : Annotations → Bool}

theorem ne_directiveKey {key : String} (ordinary : controlSuffix? key = none) :
    key ≠ directiveKey := by
  rintro rfl
  exact absurd ordinary (by decide)

theorem classify_of_not_embedded {text : String} (plain : (Embedded.inner? text).isNone = true) :
    Embedded.classify text = .literal := by
  rw [Embedded.classify, Option.isNone_iff_eq_none.mp plain]

/-- Data is no expression. -/
theorem Node.expr?_of_data {node : Node} (data : node.isDataWith allowed = true) :
    node.expr? = none := by
  obtain ⟨value, annotations, source⟩ := node
  cases value with
  | string text =>
    simp only [isDataWith, Value.isDataWith, Bool.and_eq_true] at data
    simp [expr?, classify_of_not_embedded data.2]
  | expression e => simp [isDataWith, Value.isDataWith] at data
  | _ => rfl

/-- A list without directives has no first one. -/
theorem firstDirective?_eq_none {items : List Node}
    (plain : ∀ item ∈ items, item.listDirective? = none) : firstDirective? items = none := by
  rw [firstDirective?, List.findSome?_eq_none_iff]
  rintro ⟨entry, position⟩ member
  have known : entry ∈ items := (List.mem_zipIdx' member).2 ▸ List.getElem_mem _
  simp only [plain entry known, Option.map_none]

/-- Data is no directive of a list. -/
theorem Node.listDirective?_of_data {entry : Node} (data : entry.isDataWith allowed = true) :
    entry.listDirective? = none := by
  obtain ⟨value, annotations, source⟩ := entry
  unfold listDirective?
  split
  · next key directive shape =>
    obtain rfl : value = .map [(key, directive)] := shape
    simp only [isDataWith, Value.isDataWith, Bool.and_eq_true, fieldsAreData_iff] at data
    rw [if_neg (ne_directiveKey (data.2 _ List.mem_cons_self).1)]
  · rfl

theorem firstDirective?_of_data {items : List Node}
    (data : ∀ item ∈ items, item.isDataWith allowed = true) : firstDirective? items = none :=
  firstDirective?_eq_none fun item member => Node.listDirective?_of_data (data item member)

theorem find?_directiveKey_of_data {fields : Fields Node}
    (ordinary : ∀ field ∈ fields, controlSuffix? field.1 = none) :
    Fields.find? fields directiveKey = none :=
  Fields.find?_eq_none_iff.mpr fun field member => ne_directiveKey (ordinary field member)

theorem controlNames_of_data {fields : Fields Node}
    (ordinary : ∀ field ∈ fields, controlSuffix? field.1 = none) : controlNames fields = [] := by
  rw [controlNames, Fields.keys, List.filterMap_map, List.filterMap_eq_nil_iff]
  intro field member
  rw [Function.comp_apply, ordinary field member, Option.filter_none]

end

/-! ### Flowing data -/

section

variable {engine : Engine} {deeper : Deeper}

section

variable {binding : Binding} {defaultKey : String}

theorem overrideValue?_of_noStubs (noStubs : binding.document.stubs = []) :
    binding.overrideValue? defaultKey = none := by
  rw [Binding.overrideValue?, noStubs]
  rfl

theorem stubOverride?_of_noStubs {node : Node}
    (noStubs : binding.document.stubs = []) : stubOverride? defaultKey node binding = none := by
  rw [stubOverride?, overrideValue?_of_noStubs noStubs, Option.map_none, ite_self]

theorem mapOverride?_of_noStubs {node : Node}
    (noStubs : binding.document.stubs = []) : mapOverride? defaultKey node binding = none := by
  simp only [mapOverride?, overrideValue?_of_noStubs noStubs, ite_self]

theorem expressionOverride?_of_noStubs {node : Node} {e : Expr}
    (noStubs : binding.document.stubs = []) :
    expressionOverride? defaultKey node e binding = none := by
  rw [expressionOverride?, overrideValue?_of_noStubs noStubs, Option.map_none, ite_self]

end

/-- Fields that flow to themselves make a map that does. -/
theorem flowFields_eq_pure {below : FlowBelow} {binding : Binding} {overridable : Bool}
    {fields : Fields Node}
    (same : ∀ field ∈ fields, field.1 = directiveKey ∨
      below field.2 (binding.child field.1) overridable = pure (some field.2)) :
    flowFields below binding overridable fields = pure fields := by
  induction fields with
  | nil => rfl
  | cons field rest ih =>
    obtain ⟨key, child⟩ := field
    have others := ih fun field member => same field (List.mem_cons_of_mem _ member)
    have first := same (key, child) List.mem_cons_self
    by_cases directive : key = directiveKey
    · simp [flowFields, directive, others]
    · simp [flowFields, directive, others, first.resolve_left directive]

/-- Entries that flow to themselves at their places make a list that does. -/
theorem flowEntries_of_still {below : FlowBelow} {key : String} {binding : Binding}
    {overridable : Bool} {items : List Node} {index : Nat}
    (still : ∀ offset entry, items[offset]? = some entry →
      below entry (binding.entry (entry.entrySegment (index + offset) key) key) overridable =
        pure (some entry)) :
    flowEntries below key binding overridable index items = pure items := by
  induction items generalizing index with
  | nil => rfl
  | cons item rest ih =>
    have others : flowEntries below key binding overridable (index + 1) rest = pure rest := by
      refine ih fun offset entry found => ?_
      rw [Nat.add_assoc, Nat.add_comm 1]
      exact still (offset + 1) entry found
    have first := still 0 item rfl
    rw [Nat.add_zero] at first
    by_cases directive : item.listDirective?.isSome = true
    · simp [flowEntries, directive, others]
    · simp [flowEntries, directive, others, first]

/-- Entries that flow to themselves wherever they stand make a list that does. -/
theorem flowEntries_eq_pure {below : FlowBelow} {key : String} {binding : Binding}
    {overridable : Bool} {items : List Node} {index : Nat}
    (same : ∀ item ∈ items, ∀ segment,
      below item (binding.entry segment key) overridable = pure (some item)) :
    flowEntries below key binding overridable index items = pure items :=
  flowEntries_of_still fun _ entry found => same entry (List.mem_of_getElem? found) _

theorem flowFields_cons_of_eq {below : FlowBelow} {binding : Binding} {overridable : Bool}
    {key : String} {child flowed : Node} {rest others : Fields Node} (ordinary : key ≠ directiveKey)
    (first : below child (binding.child key) overridable = pure (some flowed))
    (later : flowFields below binding overridable rest = pure others) :
    flowFields below binding overridable ((key, child) :: rest) = pure ((key, flowed) :: others) := by
  simp [flowFields, ordinary, first, later]

theorem flowEntries_cons_of_eq {below : FlowBelow} {key : String} {binding : Binding}
    {overridable : Bool} {index : Nat} {entry flowed : Node} {rest others : List Node}
    (plain : entry.listDirective? = none)
    (first : below entry (binding.entry (entry.entrySegment index key) key) overridable =
      pure (some flowed))
    (later : flowEntries below key binding overridable (index + 1) rest = pure others) :
    flowEntries below key binding overridable index (entry :: rest) = pure (flowed :: others) := by
  simp [flowEntries, plain, first, later]

/-- A map of data without an override of its own flows by its fields. -/
theorem flowMap_eq_bind {below : FlowBelow} {fields : Fields Node} {annotations : Annotations}
    {source : String} {binding : Binding} {overridable : Bool}
    (ordinary : ∀ field ∈ fields, controlSuffix? field.1 = none)
    (inert : annotations.isInert = true)
    (kept : (if overridable then
      mapOverride? engine.defaultKey ⟨.map fields, annotations, source⟩ binding else none) = none) :
    flowMap engine deeper below ⟨.map fields, annotations, source⟩ fields binding overridable = (do
      let flowed ← flowFields below binding (overridable && !annotations.blocksOverride) fields
      return some ⟨.map flowed, annotations, source⟩) := by
  rw [flowMap, kept, find?_directiveKey_of_data ordinary]
  simp only [Option.bind_none, Option.filter_none]
  rw [runControl, controlNames_of_data ordinary]
  rcases Annotations.eq_of_isInert inert with rfl | rfl <;>
    simp [flowPlainMap, mapState?, flowDirective, Annotations.clearIssue]

/-- A map of data without an override of its own flows as its fields do. -/
theorem flowMap_of_data {below : FlowBelow} {fields flowed : Fields Node} {annotations : Annotations}
    {source : String} {binding : Binding} {overridable : Bool}
    (ordinary : ∀ field ∈ fields, controlSuffix? field.1 = none)
    (inert : annotations.isInert = true)
    (kept : (if overridable then
      mapOverride? engine.defaultKey ⟨.map fields, annotations, source⟩ binding else none) = none)
    (flows : flowFields below binding (overridable && !annotations.blocksOverride) fields =
      pure flowed) :
    flowMap engine deeper below ⟨.map fields, annotations, source⟩ fields binding overridable =
      pure (some ⟨.map flowed, annotations, source⟩) := by
  rw [flowMap_eq_bind ordinary inert kept, flows, pure_bind]

/-- A list without directives and an override of its own flows as its entries do. -/
theorem flowList_of_data {below : FlowBelow} {items flowed : List Node} {annotations : Annotations}
    {source : String} {binding : Binding} {overridable : Bool}
    (noDirective : firstDirective? items = none) (clear : annotations.clearIssue = annotations)
    (kept : (if overridable && !annotations.expanded then
      stubOverride? engine.defaultKey ⟨.list items, annotations, source⟩ binding else none) = none)
    (flows : flowEntries below (annotations.listKey engine.defaultKey) binding
      (overridable && !annotations.blocksOverride) 0 items = pure flowed) :
    flowList engine deeper below ⟨.list items, annotations, source⟩ items binding overridable =
      pure (some ⟨.list flowed, annotations, source⟩) := by
  rw [flowList, flowListDirective, noDirective]
  simp only [kept, clear, pure_bind]
  rw [flows, pure_bind]

/-- A value of data that is no container is flowed by its override alone. -/
theorem flowNode_leaf_of_data {allowed : Annotations → Bool} {value : Value}
    {annotations : Annotations} {source : String} {binding : Binding} {overridable : Bool}
    {fuel : Nat} (notList : ∀ items, value ≠ .list items) (notMap : ∀ fields, value ≠ .map fields)
    (data : value.isDataWith allowed = true) :
    flowNode engine deeper (fuel + 1) ⟨value, annotations, source⟩ binding overridable =
      pure (some (flowLeaf engine ⟨value, annotations, source⟩ binding overridable)) := by
  cases value with
  | list items => exact absurd rfl (notList items)
  | map fields => exact absurd rfl (notMap fields)
  | string text =>
    rw [Value.isDataWith] at data
    rw [flowNode]
    simp only [flowString, classify_of_not_embedded data]
  | expression e => simp [Value.isDataWith] at data
  | lambda l => simp [Value.isDataWith] at data
  | template body => simp [Value.isDataWith] at data
  | _ => rfl

/-- A pass returns inert data unchanged where nothing overrides it. -/
theorem flowNode_inert {node : Node} (inert : node.isInert = true) {fuel : Nat}
    (enough : node.height < fuel) {binding : Binding} {overridable : Bool}
    (calm : overridable = false ∨ node.annotations.blocksOverride = true ∨
      binding.document.stubs = []) :
    flowNode engine deeper fuel node binding overridable = pure (some node) := by
  induction node using Node.treeInduction generalizing fuel binding overridable with
  | list items annotations source ih =>
    obtain ⟨fuel, rfl⟩ : ∃ n, fuel = n + 1 := ⟨fuel - 1, by omega⟩
    simp only [Node.isInert, Node.isDataWith, Value.isDataWith, Bool.and_eq_true,
      itemsAreData_iff] at inert
    rw [Node.height, Value.height] at enough
    have still : (overridable && !annotations.blocksOverride) = false ∨
        binding.document.stubs = [] := by
      rcases calm with rfl | blocked | noStubs <;> simp_all
    rw [flowNode]
    refine flowList_of_data (firstDirective?_of_data inert.2)
      (Annotations.clearIssue_of_isInert inert.1) ?_ ?_
    · rcases calm with rfl | blocked | noStubs
      · rfl
      · simp [stubOverride?, blocked]
      · simp [stubOverride?_of_noStubs noStubs]
    · refine flowEntries_eq_pure fun item member segment => ?_
      have lower := height_le_itemsHeight member
      exact ih item member (inert.2 item member) (by omega) (still.imp_right .inr)
  | map fields annotations source ih =>
    obtain ⟨fuel, rfl⟩ : ∃ n, fuel = n + 1 := ⟨fuel - 1, by omega⟩
    simp only [Node.isInert, Node.isDataWith, Value.isDataWith, Bool.and_eq_true,
      fieldsAreData_iff] at inert
    rw [Node.height, Value.height] at enough
    have still : (overridable && !annotations.blocksOverride) = false ∨
        binding.document.stubs = [] := by
      rcases calm with rfl | blocked | noStubs <;> simp_all
    rw [flowNode]
    refine flowMap_of_data (fun field member => (inert.2 field member).1) inert.1 ?_ ?_
    · rcases calm with rfl | blocked | noStubs
      · rfl
      · simp [mapOverride?, blocked]
      · simp [mapOverride?_of_noStubs noStubs]
    · refine flowFields_eq_pure fun field member => .inr ?_
      have lower := height_le_fieldsHeight member
      exact ih field member (inert.2 field member).2 (by omega) (still.imp_right .inr)
  | leaf value annotations source notList notMap =>
    obtain ⟨fuel, rfl⟩ : ∃ n, fuel = n + 1 := ⟨fuel - 1, by omega⟩
    simp only [Node.isInert, Node.isDataWith, Bool.and_eq_true] at inert
    rw [flowNode_leaf_of_data notList notMap inert.2, flowLeaf]
    rcases calm with rfl | blocked | noStubs
    · rfl
    · simp [stubOverride?, blocked]
    · simp [stubOverride?_of_noStubs noStubs]

end

/-! ### Settled data -/

/-- Data is recognised as unchanged. -/
theorem Node.same_of_data {allowed : Annotations → Bool} {node : Node}
    (data : node.isDataWith allowed = true) : node.same node = true := by
  induction node using Node.treeInduction with
  | list items annotations source ih =>
    simp only [isDataWith, Value.isDataWith, Bool.and_eq_true, itemsAreData_iff] at data ih
    have each := fun item member => ih item member (data.2 item member)
    have items : sameNodes items items = true := by
      clear ih data
      induction items with
      | nil => rw [sameNodes]
      | cons item rest ih => simp_all [sameNodes]
    simp [Node.same, Value.same, items]
  | map fields annotations source ih =>
    simp only [isDataWith, Value.isDataWith, Bool.and_eq_true, fieldsAreData_iff] at data ih
    have each := fun field member => ih field member (data.2 field member).2
    have fields : sameFields fields fields = true := by
      clear ih data
      induction fields with
      | nil => rw [sameFields]
      | cons field rest ih =>
        obtain ⟨key, child⟩ := field
        simp_all [sameFields]
    simp [Node.same, Value.same, fields]
  | leaf value annotations source notList notMap =>
    cases value <;> simp_all [Node.same, Value.same, isDataWith, Value.isDataWith]

/-- No string of data is escaped. -/
theorem Node.unescape_of_data {allowed : Annotations → Bool} {node : Node}
    (data : node.isDataWith allowed = true) : node.unescape = node := by
  induction node using Node.treeInduction with
  | list items annotations source ih =>
    simp only [isDataWith, Value.isDataWith, Bool.and_eq_true, itemsAreData_iff] at data ih
    have items : items.map unescape = items :=
      (List.map_congr_left fun item member => ih item member (data.2 item member)).trans
        (List.map_id' items)
    rw [unescape, Value.unescape, unescapeItems_eq_map, items]
  | map fields annotations source ih =>
    simp only [isDataWith, Value.isDataWith, Bool.and_eq_true, fieldsAreData_iff] at data ih
    have fields : (fields.map fun field => (field.1, field.2.unescape)) = fields := by
      refine (List.map_congr_left fun field member => ?_).trans (List.map_id' fields)
      rw [ih field member (data.2 field member).2]
    rw [unescape, Value.unescape, unescapeFields_eq_map, fields]
  | leaf value annotations source notList notMap =>
    simp only [isDataWith, Bool.and_eq_true] at data
    cases value <;> simp_all [unescape, Value.unescape, Value.isDataWith, classify_of_not_embedded]

/-- The node is part of the document and of nothing else, and it did not fail. -/
def Annotations.isShown (a : Annotations) : Bool :=
  !a.hasError && !a.failed && a.issue.isNone && !a.temporary && !a.localOnly && !a.state

theorem Annotations.isShown_iff {a : Annotations} :
    a.isShown = true ↔ a.hasError = false ∧ a.failed = false ∧ a.issue = none ∧
      a.temporary = false ∧ a.localOnly = false ∧ a.state = false := by
  simp [isShown, and_assoc]

/-- Data that is the document as it stands. -/
def Node.isShown (node : Node) : Bool := node.isDataWith Annotations.isShown

/-- Data stays data of a kind if its annotations are of that kind. -/
theorem Node.isDataWith_mono {allowed allowed' : Annotations → Bool}
    (wider : ∀ a, allowed a = true → allowed' a = true) {node : Node}
    (data : node.isDataWith allowed = true) : node.isDataWith allowed' = true := by
  induction node using Node.treeInduction with
  | list items annotations source ih =>
    simp only [isDataWith, Value.isDataWith, Bool.and_eq_true, itemsAreData_iff] at data ih ⊢
    exact ⟨wider _ data.1, fun item member => ih item member (data.2 item member)⟩
  | map fields annotations source ih =>
    simp only [isDataWith, Value.isDataWith, Bool.and_eq_true, fieldsAreData_iff] at data ih ⊢
    exact ⟨wider _ data.1, fun field member =>
      ⟨(data.2 field member).1, ih field member (data.2 field member).2⟩⟩
  | leaf value annotations source notList notMap =>
    cases value <;> simp_all [isDataWith, Value.isDataWith]

theorem Node.isShown_of_isInert {node : Node} (inert : node.isInert = true) :
    node.isShown = true := by
  refine Node.isDataWith_mono (fun a inert => ?_) inert
  rcases Annotations.eq_of_isInert inert with rfl | rfl <;> rfl

/-- Reports find nothing in data that did not fail. -/
theorem entriesOf_of_shown {defaultKey : String} {node : Node} (shown : node.isShown = true)
    (path : List String) : Report.entriesOf defaultKey node path = [] := by
  induction node using Node.treeInduction generalizing path with
  | list items annotations source ih =>
    simp only [Node.isShown, Node.isDataWith, Value.isDataWith, Bool.and_eq_true,
      itemsAreData_iff] at shown ih
    have each := fun item member => ih item member (shown.2 item member)
    have items : ∀ key index, Report.entriesOfItems defaultKey key index items path = [] := by
      clear ih shown
      induction items with
      | nil => intros; rw [Report.entriesOfItems]
      | cons item rest ih => simp_all [Report.entriesOfItems]
    have clear := Annotations.isShown_iff.mp shown.1
    simp [Report.entriesOf, Report.entryOf?, Report.expression?, Report.entriesOfValue, items, clear]
  | map fields annotations source ih =>
    simp only [Node.isShown, Node.isDataWith, Value.isDataWith, Bool.and_eq_true,
      fieldsAreData_iff] at shown ih
    have each := fun field member => ih field member (shown.2 field member).2
    have fields : Report.entriesOfFields defaultKey fields path = [] := by
      clear ih shown
      induction fields with
      | nil => rw [Report.entriesOfFields]
      | cons field rest ih =>
        obtain ⟨key, child⟩ := field
        simp_all [Report.entriesOfFields]
    have clear := Annotations.isShown_iff.mp shown.1
    simp [Report.entriesOf, Report.entryOf?, Report.expression?, Report.entriesOfValue, fields,
      clear]
  | leaf value annotations source notList notMap =>
    simp only [Node.isShown, Node.isDataWith, Bool.and_eq_true] at shown
    have clear := Annotations.isShown_iff.mp shown.1
    cases value <;>
      simp_all [Report.entriesOf, Report.entryOf?, Report.expression?, Report.entriesOfValue,
        Value.isDataWith]

theorem collect_of_shown {node : Node} (shown : node.isShown = true) (defaultKey : String) :
    Report.collect node defaultKey = {} := by
  rw [Report.collect, entriesOf_of_shown shown, Report.sorted, List.mergeSort_nil]

/-- No node of a document as it stands is temporary or local. -/
theorem Node.strip?_of_shown {temporary : Bool} {node : Node} (shown : node.isShown = true) :
    node.strip? temporary = some node := by
  induction node using Node.treeInduction with
  | list items annotations source ih =>
    simp only [isShown, isDataWith, Value.isDataWith, Bool.and_eq_true, itemsAreData_iff] at shown ih
    have items : stripItems temporary items = items := by
      rw [stripItems_eq_filterMap, List.filterMap_congr (g := some) fun item member =>
        ih item member (shown.2 item member), List.filterMap_some]
    have clear := Annotations.isShown_iff.mp shown.1
    simp [strip?, Value.strip, items, clear]
  | map fields annotations source ih =>
    simp only [isShown, isDataWith, Value.isDataWith, Bool.and_eq_true, fieldsAreData_iff]
      at shown ih
    have fields : stripFields temporary fields = fields := by
      rw [stripFields_eq_filterMap, List.filterMap_congr (g := some), List.filterMap_some]
      intro field member
      rw [ih field member (shown.2 field member).2, Option.map_some]
    have clear := Annotations.isShown_iff.mp shown.1
    simp [strip?, Value.strip, fields, clear]
  | leaf value annotations source notList notMap =>
    simp only [isShown, isDataWith, Bool.and_eq_true] at shown
    have clear := Annotations.isShown_iff.mp shown.1
    cases value <;> simp_all [strip?, Value.strip]

theorem finalDocument_of_shown {tree : Node} (shown : tree.isShown = true) :
    finalDocument tree = tree := by
  rw [finalDocument, Node.strip?_of_shown shown, Node.orNil, Option.getD_some,
    Node.unescape_of_data shown]

/-- No node of a document as it stands belongs to the state document. -/
theorem Node.extractState?_of_shown {defaultKey : String} {node : Node}
    (shown : node.isShown = true) : node.extractState? defaultKey = none := by
  induction node using Node.treeInduction with
  | list items annotations source ih =>
    simp only [isShown, isDataWith, Value.isDataWith, Bool.and_eq_true, itemsAreData_iff] at shown ih
    have without : ∀ state ∈ (extractStateItems defaultKey items).reverse, state.2.isNone = true := by
      simp only [extractStateItems_eq_map, List.mem_reverse, List.mem_map]
      rintro _ ⟨item, member, rfl⟩
      simp [ih item member (shown.2 item member)]
    have states : upToLastState (extractStateItems defaultKey items) = [] := by
      rw [upToLastState, List.dropWhile_eq_nil_iff.mpr without, List.reverse_nil]
    have clear := Annotations.isShown_iff.mp shown.1
    simp [extractState?, Value.extractState?, states, clear]
  | map fields annotations source ih =>
    simp only [isShown, isDataWith, Value.isDataWith, Bool.and_eq_true, fieldsAreData_iff]
      at shown ih
    have states : extractStateFields defaultKey fields = [] := by
      rw [extractStateFields_eq_filterMap, List.filterMap_eq_nil_iff]
      intro field member
      rw [ih field member (shown.2 field member).2, Option.map_none]
    have clear := Annotations.isShown_iff.mp shown.1
    simp [extractState?, Value.extractState?, states, clear]
  | leaf value annotations source notList notMap =>
    simp only [isShown, isDataWith, Bool.and_eq_true] at shown
    have clear := Annotations.isShown_iff.mp shown.1
    cases value <;> simp_all [extractState?, Value.extractState?]

/-- A place in an empty document, where data is flowed that looks nothing up. -/
def emptyPlace : Binding := .atRoot ⟨⟨⟨0, []⟩, .plain .nil "", [], none⟩, [], [], none⟩ 0

end Cascade
