import Cascade.Proofs.FinalReferences
import Cascade.Proofs.InertPasses

/-!
# Default values of stubs

A stub value with the flag `default` fills a field that the template lacks and overrides none that
it has. The flag is asked of the very value at a place, not of the containers around it. So a
template keeps its values if every stub value at one of its places carries the flag itself, maps over
maps aside: they override field by field.

What the template holds is a part of every tree of the run. Insertion and passes change the rest of
the tree only: insertion puts fields where the template has none, and a pass flows what has been put
there.

## Main definitions

* `Node.isIdle`: a template without expressions and controls.
* `Node.IsShielded`: every stub value at a place of the template is flagged itself.
* `Node.Extends`: a tree that holds all of a template.

## Main statements

* `Node.Extends.insertAt?`: insertion at an absent path leaves the template in the tree.
* `Node.Extends.flowNode`: a pass leaves the template in the tree.
* `apply_defaults`: a cascade keeps a template that is shielded from its stubs.
-/

namespace Cascade

/-! ### Templates without expressions -/

/-- Nothing in the text is evaluated: it holds no expression, or an escaped one. -/
def Embedded.isIdle (text : String) : Bool :=
  match classify text with
  | .literal | .escaped _ => true
  | _ => false

mutual

/-- A template without expressions, and without keys of directives and controls. -/
def Node.isIdle : Node → Bool
  | ⟨value, annotations, _⟩ => annotations.isPlain && Value.isIdle value

/-- There is no expression in the value, and no key of a directive or control. -/
def Value.isIdle : Value → Bool
  | .string text => Embedded.isIdle text
  | .list items => itemsAreIdle items
  | .map fields => fieldsAreIdle fields
  | .expression _ | .lambda _ | .template _ => false
  | _ => true

/-- There is no expression in the items. -/
def itemsAreIdle : List Node → Bool
  | [] => true
  | item :: rest => item.isIdle && itemsAreIdle rest

/-- There is no expression in the fields, and no key of a directive or control. -/
def fieldsAreIdle : List (String × Node) → Bool
  | [] => true
  | (key, child) :: rest =>
    (controlSuffix? key).isNone && child.isIdle && fieldsAreIdle rest

end

theorem itemsAreIdle_iff {items : List Node} :
    itemsAreIdle items = true ↔ ∀ item ∈ items, item.isIdle = true := by
  induction items with
  | nil => simp [itemsAreIdle]
  | cons item rest ih => simp [itemsAreIdle, ih]

theorem fieldsAreIdle_iff {fields : List (String × Node)} :
    fieldsAreIdle fields = true ↔
      ∀ field ∈ fields, controlSuffix? field.1 = none ∧ field.2.isIdle = true := by
  induction fields with
  | nil => simp [fieldsAreIdle]
  | cons field rest ih => simp [fieldsAreIdle, ih]

namespace Node

theorem isIdle_list {items : List Node} {annotations : Annotations} {source : String} :
    (Node.mk (.list items) annotations source).isIdle = true ↔
      annotations = {} ∧ ∀ item ∈ items, item.isIdle = true := by
  rw [isIdle, Value.isIdle, Bool.and_eq_true, itemsAreIdle_iff, Annotations.isPlain, beq_iff_eq]

theorem isIdle_map {fields : Fields Node} {annotations : Annotations} {source : String} :
    (Node.mk (.map fields) annotations source).isIdle = true ↔
      annotations = {} ∧
        ∀ field ∈ fields, controlSuffix? field.1 = none ∧ field.2.isIdle = true := by
  rw [isIdle, Value.isIdle, Bool.and_eq_true, fieldsAreIdle_iff, Annotations.isPlain, beq_iff_eq]

theorem annotations_of_isIdle {node : Node} (idle : node.isIdle = true) : node.annotations = {} := by
  obtain ⟨value, annotations, source⟩ := node
  rw [isIdle, Bool.and_eq_true] at idle
  exact Annotations.eq_of_isPlain idle.1

/-- There is no expression to read in an idle node. -/
theorem expr?_of_isIdle {node : Node} (idle : node.isIdle = true) : node.expr? = none := by
  obtain ⟨value, annotations, source⟩ := node
  rw [isIdle, Bool.and_eq_true] at idle
  cases value with
  | string text =>
    have shown := idle.2
    rw [Value.isIdle, Embedded.isIdle] at shown
    unfold expr?
    dsimp only
    split at shown <;> simp_all
  | expression e => cases idle.2
  | _ => rfl

theorem listDirective?_of_isIdle {entry : Node} (idle : entry.isIdle = true) :
    entry.listDirective? = none := by
  obtain ⟨value, annotations, source⟩ := entry
  unfold listDirective?
  split
  · next key directive shape =>
    obtain rfl : value = .map [(key, directive)] := shape
    rw [if_neg (ne_directiveKey ((isIdle_map.mp idle).2 _ List.mem_cons_self).1)]
  · rfl

/-- Nothing of an idle tree is temporary or local. -/
theorem strip?_of_isIdle {temporary : Bool} {node : Node} (idle : node.isIdle = true) :
    node.strip? temporary = some node := by
  induction node using Node.treeInduction with
  | list items annotations source ih =>
    obtain ⟨rfl, inside⟩ := isIdle_list.mp idle
    have items : stripItems temporary items = items := by
      rw [stripItems_eq_filterMap, List.filterMap_congr (g := some) fun item member =>
        ih item member (inside item member), List.filterMap_some]
    simp [strip?, Value.strip, items]
  | map fields annotations source ih =>
    obtain ⟨rfl, inside⟩ := isIdle_map.mp idle
    have fields : stripFields temporary fields = fields := by
      rw [stripFields_eq_filterMap, List.filterMap_congr (g := some), List.filterMap_some]
      intro field member
      rw [ih field member (inside field member).2, Option.map_some]
    simp [strip?, Value.strip, fields]
  | leaf value annotations source notList notMap =>
    obtain rfl : annotations = {} := annotations_of_isIdle idle
    cases value with
    | list items => exact absurd rfl (notList items)
    | map fields => exact absurd rfl (notMap fields)
    | _ => simp [strip?, Value.strip]

end Node

/-! ### Templates that are shielded from stubs -/

/-- Every value that stubs have at a place of the template is a default itself, maps over maps aside,
and none of those over a list is a map. -/
inductive Node.IsShielded (defaultKey : String) : Node → List Node → Prop
  | leaf {node : Node} {values : List Node} (notList : ∀ items, node.value ≠ .list items)
      (notMap : ∀ fields, node.value ≠ .map fields)
      (flagged : ∀ value ∈ values, value.annotations.default = true) :
      IsShielded defaultKey node values
  | list {items : List Node} {source : String} {values : List Node}
      (flagged : ∀ value ∈ values, value.annotations.default = true)
      (noMap : ∀ value ∈ values, ∀ fields, value.value ≠ .map fields)
      (entries : ∀ index entry, items[index]? = some entry → IsShielded defaultKey entry
        (values.filterMap (·.stepBy? (entry.entrySegment index defaultKey) defaultKey))) :
      IsShielded defaultKey ⟨.list items, {}, source⟩ values
  | map {fields : Fields Node} {source : String} {values : List Node}
      (flagged : ∀ value ∈ values, value.annotations.default = true ∨
        ∃ inner, value.value = .map inner)
      (inside : ∀ field ∈ fields,
        IsShielded defaultKey field.2 (values.filterMap (·.step? field.1 defaultKey))) :
      IsShielded defaultKey ⟨.map fields, {}, source⟩ values

section

variable {engine : Engine} {deeper : Deeper} {defaultKey : String} {b : Binding} {node : Node}

/-- Defaults override nothing. -/
theorem stubOverride?_of_defaults
    (flagged : ∀ value ∈ b.stubValues defaultKey, value.annotations.default = true) :
    stubOverride? defaultKey node b = none := by
  have nothing : b.overrideValue? defaultKey = none := by
    change (b.stubValues defaultKey).find? _ = none
    rw [List.find?_eq_none]
    intro value member
    simp [flagged value member]
  rw [stubOverride?, nothing, Option.map_none, ite_self]

/-- Defaults and maps override no map as a whole. -/
theorem mapOverride?_of_defaults
    (flagged : ∀ value ∈ b.stubValues defaultKey, value.annotations.default = true ∨
      ∃ inner, value.value = .map inner) :
    mapOverride? defaultKey node b = none := by
  rw [mapOverride?]
  split
  · rfl
  · cases found : b.overrideValue? defaultKey with
    | none => rfl
    | some value =>
      change (b.stubValues defaultKey).find? _ = some value at found
      have kept := List.find?_some found
      obtain ⟨content, annotations, source⟩ := value
      rcases flagged _ (List.mem_of_find?_eq_some found) with flag | ⟨inner, shape⟩
      · rw [flag] at kept
        cases kept
      · obtain rfl : content = .map inner := shape
        rfl

/-- A leaf that is idle is flowed by its override alone. -/
theorem flowNode_leaf_of_isIdle {fuel : Nat} (idle : node.isIdle = true)
    (notList : ∀ items, node.value ≠ .list items) (notMap : ∀ fields, node.value ≠ .map fields)
    (kept : stubOverride? engine.defaultKey node b = none) :
    flowNode engine deeper (fuel + 1) node b true = pure (some node) := by
  obtain ⟨value, annotations, source⟩ := node
  rw [flowNode]
  cases value with
  | list items => exact absurd rfl (notList items)
  | map fields => exact absurd rfl (notMap fields)
  | string text =>
    rw [Node.isIdle, Bool.and_eq_true, Value.isIdle, Embedded.isIdle] at idle
    simp only [flowString]
    split at idle
    · next shape => simp only [shape, flowLeaf, if_true, kept, Option.getD_none]
    · next shape => simp only [shape, flowLeaf, if_true, kept, Option.getD_none]
    · simp at idle
  | expression e => simp [Node.isIdle, Value.isIdle] at idle
  | lambda l => simp [Node.isIdle, Value.isIdle] at idle
  | template body => simp [Node.isIdle, Value.isIdle] at idle
  | _ => simp only [flowLeaf, if_true, kept, Option.getD_none]

/-- A pass returns a shielded template unchanged. -/
theorem flowNode_of_isShielded {fuel : Nat} (idle : node.isIdle = true) (aligned : b.IsAligned)
    (shielded : node.IsShielded engine.defaultKey (b.stubValues engine.defaultKey))
    (enough : node.height < fuel) :
    flowNode engine deeper fuel node b true = pure (some node) := by
  obtain ⟨fuel, rfl⟩ : ∃ n, fuel = n + 1 := ⟨fuel - 1, by omega⟩
  induction node using Node.treeInduction generalizing b fuel with
  | list items annotations source ih =>
    obtain ⟨rfl, inside⟩ := Node.isIdle_list.mp idle
    rw [Node.height, Value.height] at enough
    cases shielded with
    | leaf notList => exact absurd rfl (notList items)
    | list flagged noMap entries =>
      rw [flowNode]
      have kept : stubOverride? engine.defaultKey ⟨.list items, {}, source⟩ b = none :=
        stubOverride?_of_defaults flagged
      refine flowList_of_data (firstDirective?_eq_none fun item member =>
        Node.listDirective?_of_isIdle (inside item member)) rfl ((if_pos rfl).trans kept) ?_
      refine flowEntries_of_still fun index entry found => ?_
      have member := List.mem_of_getElem? found
      have lower := height_le_itemsHeight member
      obtain ⟨fuel, rfl⟩ : ∃ n, fuel = n + 1 := ⟨fuel - 1, by omega⟩
      have below := entries index entry found
      rw [← Binding.stubValues_entry aligned] at below
      rw [Nat.zero_add]
      exact ih entry member (inside entry member) (aligned.entry _ _) below fuel (by omega)
  | map fields annotations source ih =>
    obtain ⟨rfl, inside⟩ := Node.isIdle_map.mp idle
    rw [Node.height, Value.height] at enough
    cases shielded with
    | leaf _ notMap => exact absurd rfl (notMap fields)
    | map flagged below =>
      rw [flowNode]
      have kept : mapOverride? engine.defaultKey ⟨.map fields, {}, source⟩ b = none :=
        mapOverride?_of_defaults flagged
      refine flowMap_of_data (fun field member => (inside field member).1) rfl
        ((if_pos rfl).trans kept) (flowFields_eq_pure fun field member => .inr ?_)
      have lower := height_le_fieldsHeight member
      obtain ⟨fuel, rfl⟩ : ∃ n, fuel = n + 1 := ⟨fuel - 1, by omega⟩
      have under := below field member
      rw [← Binding.stubValues_child aligned] at under
      exact ih field member (inside field member).2 (aligned.child _) under fuel (by omega)
  | leaf value annotations source notList notMap =>
    cases shielded with
    | leaf _ _ flagged =>
      exact flowNode_leaf_of_isIdle idle notList notMap (stubOverride?_of_defaults flagged)
    | list => exact absurd rfl (notList _)
    | map => exact absurd rfl (notMap _)

/-- Seeding returns a shielded template unchanged. -/
theorem seedOverrides_of_isShielded (idle : node.isIdle = true) (aligned : b.IsAligned)
    (shielded : node.IsShielded defaultKey (b.stubValues defaultKey)) :
    seedOverrides defaultKey node b = node := by
  induction node using Node.treeInduction generalizing b with
  | list items annotations source ih =>
    obtain ⟨rfl, inside⟩ := Node.isIdle_list.mp idle
    cases shielded with
    | leaf notList => exact absurd rfl (notList items)
    | list flagged noMap entries =>
      have seeded : ∀ rest index, (∀ offset entry, rest[offset]? = some entry →
          items[index + offset]? = some entry) →
          seedItems defaultKey defaultKey index rest b = rest := by
        intro rest
        induction rest with
        | nil => intro index _; rw [seedItems]
        | cons entry rest others =>
          intro index part
          have found := part 0 entry rfl
          have member := List.mem_of_getElem? found
          have below := entries index entry found
          rw [← Binding.stubValues_entry aligned] at below
          rw [seedItems, ih entry member (inside entry member) (aligned.entry _ _) below,
            others (index + 1) fun offset item at_ => ?_]
          rw [Nat.add_assoc, Nat.add_comm 1]
          exact part (offset + 1) item at_
      have noDirective : (items.any fun entry => entry.listDirective?.isSome) = false := by
        rw [List.any_eq_false]
        intro item member
        simp [Node.listDirective?_of_isIdle (inside item member)]
      have whole : seedItems defaultKey (Annotations.listKey {} defaultKey) 0 items b = items :=
        seeded items 0 fun offset entry found => by rwa [Nat.zero_add]
      rw [seedOverrides, if_neg (by simp [Annotations.blocksOverride])]
      simp only [noDirective, stubOverride?_of_defaults flagged, whole]
      rfl
  | map fields annotations source ih =>
    obtain ⟨rfl, inside⟩ := Node.isIdle_map.mp idle
    cases shielded with
    | leaf _ notMap => exact absurd rfl (notMap fields)
    | map flagged below =>
      rw [seedOverrides_map_of_kept (fun field member => (inside field member).1)
        (mapOverride?_of_defaults flagged)]
      congr 2
      refine (List.map_congr_left fun field member => ?_).trans (List.map_id' fields)
      have under := below field member
      rw [← Binding.stubValues_child aligned] at under
      rw [ih field member (inside field member).2 (aligned.child _) under]
  | leaf value annotations source notList notMap =>
    cases shielded with
    | leaf _ _ flagged =>
      obtain rfl : annotations = {} := Node.annotations_of_isIdle idle
      have noExpression := Node.expr?_of_isIdle idle
      have kept : stubOverride? defaultKey ⟨value, {}, source⟩ b = none :=
        stubOverride?_of_defaults flagged
      cases value with
      | list items => exact absurd rfl (notList items)
      | map fields => exact absurd rfl (notMap fields)
      | _ =>
        simp only [seedOverrides]
        simp [Annotations.blocksOverride, noExpression, kept]
    | list => exact absurd rfl (notList _)
    | map => exact absurd rfl (notMap _)

end

/-! ### Trees that hold a template -/

/-- The tree holds all of the template: its values as they are, and its fields, perhaps among
others. -/
inductive Node.Extends : Node → Node → Prop
  | same {node : Node} (notMap : ∀ fields, node.value ≠ .map fields) : Extends node node
  | map {fields fields' : Fields Node} {source : String} {after : String → Node}
      (ordinary : ∀ field ∈ fields', controlSuffix? field.1 = none)
      (kept : ∀ key child, Fields.find? fields key = some child →
        Fields.find? fields' key = some (after key))
      (below : ∀ key child, Fields.find? fields key = some child → Extends child (after key)) :
      Extends ⟨.map fields, {}, source⟩ ⟨.map fields', {}, source⟩

namespace Node.Extends

variable {template tree : Node}

/-- A map holds the fields of another one if it has one for each that holds it. -/
theorem of_fields {fields fields' : Fields Node} {source : String}
    (ordinary : ∀ field ∈ fields', controlSuffix? field.1 = none)
    (each : ∀ key child, Fields.find? fields key = some child →
      ∃ after, Fields.find? fields' key = some after ∧ child.Extends after) :
    Extends ⟨.map fields, {}, source⟩ ⟨.map fields', {}, source⟩ := by
  refine @Extends.map fields fields' source
    (fun key => (Fields.find? fields' key).getD (.plain .nil source)) ordinary
    (fun key child found => ?_) fun key child found => ?_
  · obtain ⟨after, stands, -⟩ := each key child found
    rw [stands, Option.getD_some]
  · obtain ⟨after, stands, holds⟩ := each key child found
    rw [stands, Option.getD_some]
    exact holds

/-- What holds a map is a map that has a field for each of its fields. -/
theorem fields_of_map {fields : Fields Node} {annotations : Annotations} {source : String}
    (extends_ : Extends ⟨.map fields, annotations, source⟩ tree) :
    ∃ fields', annotations = {} ∧ tree = ⟨.map fields', {}, source⟩ ∧
      (∀ field ∈ fields', controlSuffix? field.1 = none) ∧
      ∀ key child, Fields.find? fields key = some child →
        ∃ after, Fields.find? fields' key = some after ∧ child.Extends after := by
  cases extends_ with
  | same notMap => exact absurd rfl (notMap fields)
  | @map _ fields' _ after ordinary kept below =>
    exact ⟨fields', rfl, rfl, ordinary, fun key child found =>
      ⟨after key, kept key child found, below key child found⟩⟩

/-- What holds a value that is no map is that value. -/
theorem eq_of_not_map (extends_ : template.Extends tree)
    (notMap : ∀ fields, template.value ≠ .map fields) : tree = template := by
  cases extends_ with
  | same => rfl
  | map => exact absurd rfl (notMap _)

/-- A template without expressions holds itself. -/
theorem refl_of_isIdle (idle : template.isIdle = true) : template.Extends template := by
  induction template using Node.treeInduction with
  | list items annotations source ih => exact .same (by simp)
  | map fields annotations source ih =>
    obtain ⟨rfl, inside⟩ := isIdle_map.mp idle
    refine of_fields (fun field member => (inside field member).1) fun key child found => ?_
    have member := Fields.mem_of_find? found
    exact ⟨child, found, ih (key, child) member (inside _ member).2⟩
  | leaf value annotations source notList notMap => exact .same notMap

/-- Every value of the template that is no map stands at its path. -/
theorem lookup? {defaultKey : String} {path : List String} {node : Node}
    (extends_ : template.Extends tree) (found : template.lookup? path defaultKey = some node)
    (notMap : ∀ fields, node.value ≠ .map fields) : tree.lookup? path defaultKey = some node := by
  induction path generalizing template tree with
  | nil =>
    cases found
    rw [extends_.eq_of_not_map notMap]
    rfl
  | cons segment path ih =>
    rw [Node.lookup?_cons] at found ⊢
    obtain ⟨child, step, later⟩ := Option.bind_eq_some_iff.mp found
    cases extends_ with
    | same => exact found
    | @map fields fields' source after ordinary kept below =>
      have stands : Node.step? ⟨.map fields', {}, source⟩ segment defaultKey =
          some (after segment) := kept segment child step
      rw [stands, Option.bind_some]
      exact ih (below segment child step) later

end Node.Extends

/-! ### Insertion -/

/-- The keys of all maps that fields lead to are plain names, each given once. -/
inductive Node.HasPlainNames : Node → Prop
  | leaf {node : Node} (notMap : ∀ fields, node.value ≠ .map fields) : HasPlainNames node
  | map {fields : Fields Node} {annotations : Annotations} {source : String}
      (distinct : (Fields.keys fields).Nodup)
      (ordinary : ∀ field ∈ fields, controlSuffix? field.1 = none)
      (inside : ∀ field ∈ fields, HasPlainNames field.2) :
      HasPlainNames ⟨.map fields, annotations, source⟩

/-- The part of a stub at a path of fields is one of the values that the template is shielded from
there, if the template has the path. -/
def Node.Faces (defaultKey : String) : (template stub : Node) → (path : List String) → Prop
  | template, stub, [] => ∃ values, stub ∈ values ∧ template.IsShielded defaultKey values
  | template, stub, segment :: path =>
    (∀ items, template.value ≠ .list items) ∧
    ∀ child, template.field? segment = some child → child.Faces defaultKey stub path

section

variable {defaultKey : String} {template tree : Node}

/-- A field of a stub map faces the template one step further down. -/
theorem Node.Faces.field {fields : Fields Node} {annotations : Annotations} {source : String}
    {field : String × Node} {path : List String}
    (faces : template.Faces defaultKey ⟨.map fields, annotations, source⟩ path)
    (distinct : (Fields.keys fields).Nodup) (member : field ∈ fields) :
    template.Faces defaultKey field.2 (path ++ [field.1]) := by
  induction path generalizing template with
  | nil =>
    obtain ⟨values, known, shielded⟩ := faces
    refine ⟨fun items shape => ?_, fun child found => ?_⟩
    · cases shielded with
      | leaf notList => exact notList items shape
      | list flagged noMap => exact noMap _ known fields rfl
      | map => cases shape
    · cases shielded with
      | leaf _ notMap =>
        unfold Node.field? at found
        split at found
        · next inner shape => exact absurd shape (notMap inner)
        · cases found
      | list => cases found
      | map flagged inside =>
        refine ⟨_, ?_, inside (field.1, child) (Fields.mem_of_find? found)⟩
        exact List.mem_filterMap.mpr ⟨_, known, Fields.find?_of_mem distinct member⟩
  | cons segment path ih => exact ⟨faces.1, fun child found => ih (faces.2 child found)⟩

/-- A field set at an absent path leaves the template in the tree. -/
theorem Node.Extends.insertAt? {stub value result : Node} {path : List String}
    (extends_ : template.Extends tree) (faces : template.Faces defaultKey stub path)
    (ordinary : ∀ segment ∈ path, controlSuffix? segment = none)
    (absent : tree.lookup? path defaultKey = none)
    (inserted : tree.insertAt? path value = some result) : template.Extends result := by
  induction path generalizing template tree result with
  | nil => cases inserted
  | cons segment path ih =>
    obtain ⟨content, annotations, source⟩ := template
    cases content with
    | list items => exact absurd rfl (faces.1 items)
    | map fields =>
      obtain ⟨fields', rfl, rfl, named, each⟩ := extends_.fields_of_map
      have plain : ∀ child, ∀ field ∈ Fields.insert segment child fields',
          controlSuffix? field.1 = none := by
        intro child field member
        rcases Fields.mem_insert member with rfl | known
        · exact ordinary segment List.mem_cons_self
        · exact named field known
      rw [Node.lookup?_cons, Option.bind_eq_none_iff] at absent
      cases path with
      | nil =>
        cases inserted
        refine .of_fields (plain value) fun key child found => ?_
        obtain ⟨after, stands, holds⟩ := each key child found
        refine ⟨after, ?_, holds⟩
        rw [Fields.find?_insert, if_neg, stands]
        rintro rfl
        cases absent after stands
      | cons next rest =>
        obtain ⟨old, stood, changed⟩ := Option.bind_eq_some_iff.mp inserted
        obtain ⟨new, made, done⟩ := Option.bind_eq_some_iff.mp changed
        cases done
        refine .of_fields (plain new) fun key child found => ?_
        obtain ⟨after, stands, holds⟩ := each key child found
        rw [Fields.find?_insert]
        split
        · next same =>
          subst same
          rw [stood, Option.some.injEq] at stands
          subst stands
          exact ⟨new, rfl, ih holds (faces.2 child found)
            (fun segment member => ordinary segment (List.mem_cons_of_mem _ member))
            (absent old stood) made⟩
        · exact ⟨after, stands, holds⟩
    | _ =>
      -- A field is set in a map or below a list, and the template is neither.
      rw [extends_.eq_of_not_map (by simp)] at inserted
      cases path <;> cases inserted

/-- The fields that a stub adds leave the template in the tree. -/
theorem Node.Extends.insertAbsent {stub : Node} {path : List String}
    (plain : stub.HasPlainNames) (faces : template.Faces defaultKey stub path)
    (ordinary : ∀ segment ∈ path, controlSuffix? segment = none) (extends_ : template.Extends tree) :
    template.Extends (insertAbsent defaultKey tree path stub) := by
  induction plain generalizing path tree with
  | leaf notMap =>
    rw [Cascade.insertAbsent]
    · exact extends_
    · rintro fields _ _ rfl
      exact notMap fields rfl
  | @map fields annotations source distinct named inside ih =>
    rw [Cascade.insertAbsent]
    have part : ∀ rest, (∀ field ∈ rest, field ∈ fields) → ∀ tree, template.Extends tree →
        template.Extends (insertAbsentFields defaultKey tree path rest) := by
      intro rest
      induction rest with
      | nil =>
        intro _ tree extends_
        rw [insertAbsentFields]
        exact extends_
      | cons field rest others =>
        intro known tree extends_
        have member := known field List.mem_cons_self
        have further := faces.field distinct member
        have names : ∀ segment ∈ path ++ [field.1], controlSuffix? segment = none := by
          intro segment within
          rcases List.mem_append.mp within with before | last
          · exact ordinary segment before
          · rw [List.mem_singleton.mp last]
            exact named field member
        rw [insertAbsentFields]
        refine others (fun field member => known field (List.mem_cons_of_mem _ member)) _ ?_
        split
        · exact ih field member further names extends_
        · next absent =>
          split
          · cases inserted : tree.insertAt? (path ++ [field.1]) field.2 with
            | none => exact extends_
            | some result => exact extends_.insertAt? further names absent inserted
          · exact extends_
    exact part fields (fun field member => member) tree extends_

/-- What prepared stubs add leaves the template in the tree. -/
theorem Node.Extends.injected {stubs : List Node} (idle : template.isIdle = true)
    (plain : ∀ stub ∈ stubs, stub.HasPlainNames)
    (shielded : template.IsShielded defaultKey stubs) :
    template.Extends (injected defaultKey template stubs) := by
  rw [Cascade.injected]
  have part : ∀ rest : List Node, (∀ stub ∈ rest, stub ∈ stubs) → ∀ tree,
      template.Extends tree → template.Extends
        (rest.foldl (fun tree stub => Cascade.insertAbsent defaultKey tree [] stub) tree) := by
    intro rest
    induction rest with
    | nil => intro _ tree extends_; exact extends_
    | cons stub rest ih =>
      intro known tree extends_
      have member := known stub List.mem_cons_self
      rw [List.foldl_cons]
      refine ih (fun stub member => known stub (List.mem_cons_of_mem _ member)) _ ?_
      exact extends_.insertAbsent (plain stub member) ⟨stubs, member, shielded⟩ (by simp)
  exact part stubs (fun stub member => member) template (.refl_of_isIdle idle)

end

/-! ### Passes -/

section

variable {engine : Engine} {deeper : Deeper} {defaultKey : String} {b : Binding}
  {template tree : Node}

/-- Seeding leaves a shielded template in the tree. -/
theorem Node.Extends.seedOverrides (idle : template.isIdle = true) (aligned : b.IsAligned)
    (shielded : template.IsShielded defaultKey (b.stubValues defaultKey))
    (extends_ : template.Extends tree) : template.Extends (seedOverrides defaultKey tree b) := by
  induction template using Node.treeInduction generalizing b tree with
  | map fields annotations source ih =>
    obtain ⟨fields', rfl, rfl, ordinary, each⟩ := extends_.fields_of_map
    obtain ⟨-, inside⟩ := isIdle_map.mp idle
    cases shielded with
    | leaf _ notMap => exact absurd rfl (notMap fields)
    | map flagged below =>
      rw [seedOverrides_map_of_kept ordinary (mapOverride?_of_defaults flagged)]
      refine .of_fields (fun field member => ?_) fun key child found => ?_
      · obtain ⟨before, known, rfl⟩ := List.mem_map.mp member
        exact ordinary before known
      · obtain ⟨after, stands, holds⟩ := each key child found
        have member := Fields.mem_of_find? found
        have under := below (key, child) member
        rw [← Binding.stubValues_child aligned] at under
        refine ⟨_, ?_, ih (key, child) member (inside _ member).2 (aligned.child key) under holds⟩
        rw [Fields.find?_map fun key child => Cascade.seedOverrides defaultKey child (b.child key),
          stands, Option.map_some]
  | list items annotations source ih =>
    rw [extends_.eq_of_not_map (by simp), seedOverrides_of_isShielded idle aligned shielded]
    exact .same (by simp)
  | leaf value annotations source notList notMap =>
    rw [extends_.eq_of_not_map notMap, seedOverrides_of_isShielded idle aligned shielded]
    exact .same notMap

/-- A pass leaves a shielded template in the tree. -/
theorem Node.Extends.flowNode {fuel : Nat} {result : Option Node} {world world' : World}
    (idle : template.isIdle = true) (aligned : b.IsAligned)
    (shielded : template.IsShielded engine.defaultKey (b.stubValues engine.defaultKey))
    (enough : tree.height < fuel) (extends_ : template.Extends tree)
    (yields : flowNode engine deeper fuel tree b true world = some (result, world')) :
    ∃ after, result = some after ∧ template.Extends after := by
  induction template using Node.treeInduction generalizing b fuel tree result world world' with
  | map fields annotations source ih =>
    obtain ⟨fuel, rfl⟩ : ∃ n, fuel = n + 1 := ⟨fuel - 1, by omega⟩
    obtain ⟨fields', rfl, rfl, ordinary, each⟩ := extends_.fields_of_map
    obtain ⟨-, inside⟩ := isIdle_map.mp idle
    rw [Node.height, Value.height] at enough
    cases shielded with
    | leaf _ notMap => exact absurd rfl (notMap fields)
    | map flagged below =>
      have kept : mapOverride? engine.defaultKey ⟨.map fields', {}, source⟩ b = none :=
        mapOverride?_of_defaults flagged
      rw [Cascade.flowNode] at yields
      simp only [flowMap_eq_bind ordinary rfl ((if_pos rfl).trans kept)] at yields
      obtain ⟨flowed, middle, flows, done⟩ := Run.eq_of_bind yields
      cases done
      refine ⟨_, rfl, .of_fields (fun field member => ?_) fun key child found => ?_⟩
      · obtain ⟨before, known, same⟩ := mem_flowFields flows field member
        rw [← same]
        exact ordinary before known
      · obtain ⟨after, stands, holds⟩ := each key child found
        have member := Fields.mem_of_find? found
        have under := below (key, child) member
        rw [← Binding.stubValues_child aligned] at under
        have lower : after.height ≤ fieldsHeight fields' :=
          height_le_fieldsHeight (Fields.mem_of_find? stands)
        have named := ne_directiveKey (inside (key, child) member).1
        obtain ⟨start, end_, last, flow, leaves⟩ := find?_flowFields named stands flows
        obtain ⟨last, rfl, still⟩ := ih (key, child) member (inside _ member).2
          (aligned.child key) under (by omega) holds flow
        exact ⟨last, leaves last rfl, still⟩
  | list items annotations source ih =>
    obtain rfl := extends_.eq_of_not_map (by simp)
    rw [flowNode_of_isShielded idle aligned shielded enough] at yields
    cases yields
    exact ⟨_, rfl, extends_⟩
  | leaf value annotations source notList notMap =>
    obtain rfl := extends_.eq_of_not_map notMap
    rw [flowNode_of_isShielded idle aligned shielded enough] at yields
    cases yields
    exact ⟨_, rfl, extends_⟩

section

variable {s : Setting} (idle : template.isIdle = true) (overridable : s.overridable = true)
  (shielded : template.IsShielded engine.defaultKey s.stubs)

include idle overridable shielded

/-- One pass over a document leaves a shielded template in it. -/
theorem Node.Extends.pass {root next : Node} {world world' : World}
    (extends_ : template.Extends root)
    (yields : pass engine deeper s root world = some (next, world')) : template.Extends next := by
  rw [← @stubValues_rootBinding s root] at shielded
  rw [Cascade.pass, overridable] at yields
  obtain ⟨result, middle, flows, done⟩ := Run.eq_of_bind yields
  cases done
  obtain ⟨after, rfl, holds⟩ :=
    extends_.flowNode idle isAligned_rootBinding shielded (by omega) flows
  exact holds

/-- Every run of passes over a document leaves a shielded template in it. -/
theorem Node.Extends.settleWithin {root settled : Node} {passes : Nat} {world world' : World}
    (extends_ : template.Extends root)
    (yields : settleWithin engine deeper s passes root world = some (some settled, world')) :
    template.Extends settled := by
  induction passes generalizing root world with
  | zero => cases yields
  | succ passes ih =>
    rw [Cascade.settleWithin] at yields
    obtain ⟨next, middle, flows, rest⟩ := Run.eq_of_bind yields
    have holds := extends_.pass idle overridable shielded flows
    split at rest
    · cases rest
      exact holds
    · exact ih holds rest

end

end

/-! ### Outcomes -/

/-- The fields that are left when some are removed are found again. -/
theorem Fields.find?_filterMap {α β : Type} {change : α → Option β} {fields : Fields α}
    {key : String} {value : α} {result : β} (found : Fields.find? fields key = some value)
    (left : change value = some result) :
    Fields.find? (fields.filterMap fun field =>
      (change field.2).map fun changed => (field.1, changed)) key = some result := by
  induction fields with
  | nil => cases found
  | cons field rest ih =>
    obtain ⟨name, first⟩ := field
    rw [Fields.find?_cons] at found
    rw [List.filterMap_cons]
    split at found
    · next same =>
      cases found
      simp [left, Fields.find?_cons, same]
    · next differs =>
      cases changed : change first with
      | none => exact ih found
      | some other =>
        simp only [Option.map_some]
        rw [Fields.find?_cons, if_neg differs]
        exact ih found

namespace Node.Extends

variable {template tree : Node}

/-- What is removed from a tree is nothing of the template. -/
theorem strip? (temporary : Bool) (idle : template.isIdle = true) (extends_ : template.Extends tree) :
    ∃ stripped, tree.strip? temporary = some stripped ∧ template.Extends stripped := by
  induction template using Node.treeInduction generalizing tree with
  | map fields annotations source ih =>
    obtain ⟨fields', rfl, rfl, ordinary, each⟩ := extends_.fields_of_map
    obtain ⟨-, inside⟩ := isIdle_map.mp idle
    refine ⟨⟨.map (stripFields temporary fields'), {}, source⟩, by simp [Node.strip?, Value.strip],
      .of_fields (fun field member => ?_) fun key child found => ?_⟩
    · rw [stripFields_eq_filterMap] at member
      obtain ⟨before, known, stays⟩ := List.mem_filterMap.mp member
      obtain ⟨child, -, rfl⟩ := Option.map_eq_some_iff.mp stays
      exact ordinary before known
    · obtain ⟨after, stands, holds⟩ := each key child found
      have member := Fields.mem_of_find? found
      obtain ⟨stripped, left, still⟩ := ih (key, child) member (inside _ member).2 holds
      refine ⟨stripped, ?_, still⟩
      rw [stripFields_eq_filterMap]
      exact Fields.find?_filterMap stands left
  | list items annotations source ih =>
    obtain rfl := extends_.eq_of_not_map (by simp)
    exact ⟨_, strip?_of_isIdle idle, extends_⟩
  | leaf value annotations source notList notMap =>
    obtain rfl := extends_.eq_of_not_map notMap
    exact ⟨_, strip?_of_isIdle idle, extends_⟩

/-- The literal forms of a tree hold those of the template. -/
theorem unescape (extends_ : template.Extends tree) : template.unescape.Extends tree.unescape := by
  induction extends_ with
  | @same node notMap =>
    refine .same fun fields shape => ?_
    obtain ⟨value, annotations, source⟩ := node
    cases value with
    | map fields => exact notMap fields rfl
    | string text =>
      simp only [Node.unescape, Value.unescape] at shape
      split at shape <;> cases shape
    | _ => cases shape
  | @map fields fields' source after ordinary kept below ih =>
    rw [Node.unescape, Value.unescape, unescapeFields_eq_map, Node.unescape, Value.unescape,
      unescapeFields_eq_map]
    refine .of_fields (fun field member => ?_) fun key child found => ?_
    · obtain ⟨before, known, rfl⟩ := List.mem_map.mp member
      exact ordinary before known
    · rw [Fields.find?_map fun _ child => Node.unescape child] at found
      obtain ⟨written, stood, rfl⟩ := Option.map_eq_some_iff.mp found
      refine ⟨(after key).unescape, ?_, ih key written stood⟩
      rw [Fields.find?_map fun _ child => Node.unescape child, kept key written stood,
        Option.map_some]

end Node.Extends

/-- A cascade keeps a template that is shielded from its stubs: whatever the stubs add, and wherever
they flag their values as defaults, every value of the template that is no map stands at its path in
the outcome. -/
theorem apply_defaults (engine : Engine) (template : Node) (idle : template.isIdle = true)
    (stubs : List Node) (plain : ∀ stub ∈ stubs, stub.HasPlainNames)
    (shielded : template.IsShielded engine.defaultKey stubs) (state : Option Node)
    (world world' : World) (outcome : Outcome)
    (succeeds : (engine.apply template stubs state).run world = some (.ok outcome, world')) :
    template.unescape.Extends outcome.document ∧
    ∀ path node, template.unescape.lookup? path engine.defaultKey = some node →
      (∀ fields, node.value ≠ .map fields) →
      outcome.document.lookup? path engine.defaultKey = some node := by
  obtain ⟨tree, settles, made⟩ := settle_of_applyPrepared succeeds
  obtain ⟨document, -⟩ := Engine.eq_of_outcomeOfTree made
  let s := cascadeSetting ⟨world.documents, []⟩ stubs state
  have added : template.Extends (injected engine.defaultKey template stubs) :=
    .injected idle plain shielded
  have seeded : template.Extends (s.seeded engine (injected engine.defaultKey template stubs)) := by
    rw [Setting.seeded, if_pos (show s.overridable = true from rfl)]
    refine added.seedOverrides idle isAligned_rootBinding ?_
    rwa [stubValues_rootBinding]
  have holds : template.Extends tree :=
    seeded.settleWithin (s := s) idle rfl shielded settles
  obtain ⟨stripped, left, still⟩ := holds.strip? true idle
  have final : template.unescape.Extends outcome.document := by
    rw [document, finalDocument, Node.orNil, left, Option.getD_some]
    exact still.unescape
  exact ⟨final, fun path node found notMap => final.lookup? found notMap⟩

/-- A template with one setting and a list. -/
def settingsTemplate : Node :=
  .plain (.map [("a", .plain (.map [("b", .plain (.int 2) "t")]) "t"),
    ("l", .plain (.list [.plain (.int 1) "t"]) "t")]) "t"

/-- A prepared stub with defaults for that setting and another one. -/
def defaultsStub : Node :=
  .plain (.map [("a", .plain (.map [("b", ⟨.int 1, { default := true }, "s"⟩),
    ("c", ⟨.int 3, { default := true }, "s"⟩)]) "s")]) "s"

/-- The number at a path of the document of a template with prepared stubs. -/
def appliedNumber (engine : Engine) (template : Node) (stubs : List Node) (path : List String) :
    Option Int64 := do
  let (answer, _) ← (engine.apply template stubs none).run {}
  let outcome ← answer.toOption
  let node ← outcome.document.lookup? path engine.defaultKey
  node.value.asInt?

theorem exists_of_appliedNumber {engine : Engine} {template : Node} {stubs : List Node}
    {path : List String} {number : Int64}
    (known : appliedNumber engine template stubs path = some number) :
    ∃ outcome world', (engine.apply template stubs none).run {} = some (.ok outcome, world') ∧
      (outcome.document.lookup? path engine.defaultKey).bind (·.value.asInt?) = some number := by
  obtain ⟨⟨answer, world'⟩, ran, rest⟩ := Option.bind_eq_some_iff.mp known
  cases answer with
  | error failure => cases rest
  | ok outcome => exact ⟨outcome, world', ran, rest⟩

theorem apply_defaultsStub : ∃ outcome world',
    (Engine.standard.apply settingsTemplate [defaultsStub] none).run {} =
      some (.ok outcome, world') ∧
    (outcome.document.lookup? ["a", "c"] "name").bind (·.value.asInt?) = some 3 ∧
    outcome.document.lookup? ["a", "b"] "name" = some (.plain (.int 2) "t") ∧
    outcome.document.lookup? ["l"] "name" = some (.plain (.list [.plain (.int 1) "t"]) "t") := by
  have plain : ∀ stub ∈ [defaultsStub], stub.HasPlainNames := by
    rw [List.forall_mem_singleton]
    refine .map (by decide) (by decide) ?_
    rw [List.forall_mem_singleton]
    refine .map (by decide) (by decide) ?_
    simp only [List.forall_mem_cons, List.not_mem_nil, false_implies, implies_true, and_true]
    exact ⟨.leaf (by simp), .leaf (by simp)⟩
  have shielded : settingsTemplate.IsShielded "name" [defaultsStub] := by
    refine .map (List.forall_mem_singleton.mpr (.inr ⟨_, rfl⟩)) ?_
    refine List.forall_mem_cons.mpr ⟨?_, List.forall_mem_singleton.mpr ?_⟩
    · refine .map (List.forall_mem_singleton.mpr (.inr ⟨_, rfl⟩)) ?_
      exact List.forall_mem_singleton.mpr
        (.leaf (by simp [Node.plain]) (by simp [Node.plain]) (List.forall_mem_singleton.mpr rfl))
    · refine .list (List.forall_mem_nil _) (List.forall_mem_nil _) fun index entry found => ?_
      obtain rfl : entry = .plain (.int 1) "t" :=
        List.mem_singleton.mp (List.mem_of_getElem? found)
      exact .leaf (by simp [Node.plain]) (by simp [Node.plain]) (List.forall_mem_nil _)
  obtain ⟨outcome, world', succeeds, added⟩ := exists_of_appliedNumber
    (show appliedNumber Engine.standard settingsTemplate [defaultsStub] ["a", "c"] = some 3 by
      decide +kernel)
  have kept := (apply_defaults Engine.standard settingsTemplate (by decide +kernel) [defaultsStub]
    plain shielded none {} world' outcome succeeds).2
  exact ⟨outcome, world', succeeds, added, kept ["a", "b"] _ rfl (by simp [Node.plain]),
    kept ["l"] _ rfl (by simp [Node.plain])⟩

/-- A stub that flags a whole map as a default. -/
def writtenDefaults : Node :=
  .ofJson "s" (.object [("a", .string "(( &default {b = 1} ))")])

/-- The prepared form of that stub: the flag stands on the map, and not on the field in it. -/
def defaultMapStub : Node :=
  .plain (.map [("a", ⟨.map [("b", .plain (.int 1) "s")], { default := true }, "s"⟩)]) "s"

/-- The only stub is prepared to a node. -/
def preparesTo (engine : Engine) (stub prepared : Node) : Bool :=
  match (engine.prepareStubs [stub]).run {} with
  | some (.ok [made], _) => made.same prepared
  | _ => false

/-- The flag of a map does not cover its fields: the 1 below it overrides the 2 of the template. -/
theorem apply_defaultMapStub : preparesTo Engine.standard writtenDefaults defaultMapStub = true ∧
    (settingsTemplate.lookup? ["a", "b"] "name").bind (·.value.asInt?) = some 2 ∧
    ∃ outcome world', (Engine.standard.apply settingsTemplate [defaultMapStub] none).run {} =
        some (.ok outcome, world') ∧
      (outcome.document.lookup? ["a", "b"] "name").bind (·.value.asInt?) = some 1 := by
  refine ⟨by decide +kernel, by decide, ?_⟩
  exact exists_of_appliedNumber
    (show appliedNumber Engine.standard settingsTemplate [defaultMapStub] ["a", "b"] = some 1 by
      decide +kernel)

end Cascade
