import Cascade.Node.Json
import Cascade.Proofs.PlainData

/-!
# Cascading plain data

Documents without expressions cascade to an overlay: at each place the first stub value counts,
and maps are overlaid field by field as long as the first stub value is absent or a map itself. A
cascade asks the stubs for the values at absolute paths, once before the first pass and again in it;
the overlay hands the values that the stubs have at a place down from the place above.

## Main definitions

* `overlay`: the template with the first stub value at each place.
* `Binding.stubValues`: the values of all stubs for a place.

## Main statements

* `flowNode_of_plainData`: a pass puts the stub values into a template as seeding does.
* `flowNode_seedOverrides`: a pass leaves the seeded template as it is.
* `toJson_seedOverrides`: the seeded template is the overlay, up to annotations.
* `cascade_plainData`: the outcome of a cascade of plain data.
-/

namespace Cascade

/-! ### The overlay -/

section

variable (defaultKey : String)

mutual

/-- A template node under the values that stubs have at its place, highest precedence first. -/
def overlay : Node → List Node → Node
  | ⟨.map fields, annotations, source⟩, values =>
    match values.head? with
    | none | some ⟨.map _, _, _⟩ => ⟨.map (overlayFields fields values), annotations, source⟩
    | some value => value
  | node, values => values.head?.getD node

/-- The fields of a map under the values that stubs have at its place. -/
def overlayFields : List (String × Node) → List Node → List (String × Node)
  | [], _ => []
  | (key, child) :: rest, values =>
    (key, overlay child (values.filterMap (·.step? key defaultKey))) :: overlayFields rest values

end

end

/-! ### Stub values of a place -/

namespace Binding

variable {defaultKey : String}

/-- The values of the stubs that have one for the place. -/
def stubValues (b : Binding) (defaultKey : String) : List Node :=
  b.document.stubs.filterMap fun stub => stub.lookupKeyed? defaultKey b.stubPath b.stubKeys

/-- The key fields stand at the positions of the stub path. -/
def IsAligned (b : Binding) : Prop := b.stubKeys.length = b.stubPath.length

theorem IsAligned.child {b : Binding} (aligned : b.IsAligned) (segment : String) :
    (b.child segment).IsAligned := by
  simpa [IsAligned, Binding.child] using aligned

theorem IsAligned.entry {b : Binding} (aligned : b.IsAligned) (segment key : String) :
    (b.entry segment key).IsAligned := by
  simpa [IsAligned, Binding.entry, Binding.child] using aligned

end Binding

/-- One more step of a look-up. -/
theorem Node.lookupKeyed?_append {defaultKey segment : String} {key : Option String} {root : Node}
    {path : List String} {keys : List (Option String)} (aligned : keys.length = path.length) :
    root.lookupKeyed? defaultKey (path ++ [segment]) (keys ++ [key]) =
      (root.lookupKeyed? defaultKey path keys).bind fun node =>
        node.stepBy? segment (key.getD (node.keyName defaultKey)) := by
  induction path generalizing root keys with
  | nil =>
    obtain rfl := List.length_eq_zero_iff.mp aligned
    simp only [List.nil_append, lookupKeyed?, List.head?_cons, Option.join_some, Option.bind_some]
    cases root.stepBy? segment (key.getD (root.keyName defaultKey)) <;> rfl
  | cons first path ih =>
    obtain ⟨firstKey, keys, rfl⟩ := List.exists_cons_of_length_eq_add_one aligned
    simp only [List.cons_append, lookupKeyed?, List.head?_cons, Option.join_some, List.tail_cons]
    cases root.stepBy? first (firstKey.getD (root.keyName defaultKey)) with
    | none => rfl
    | some next => exact ih (by simpa using aligned)

namespace Binding

variable {defaultKey : String}

/-- The stub values of a field are one step below those of its map. -/
theorem stubValues_child {b : Binding} (aligned : b.IsAligned) (segment : String) :
    (b.child segment).stubValues defaultKey =
      (b.stubValues defaultKey).filterMap (·.step? segment defaultKey) := by
  simp only [stubValues, Binding.child, Binding.document, List.filterMap_filterMap,
    Node.lookupKeyed?_append aligned, Option.getD_none]
  rfl

/-- The stub values of an entry are one step below those of its list. -/
theorem stubValues_entry {b : Binding} (aligned : b.IsAligned) (segment key : String) :
    (b.entry segment key).stubValues defaultKey =
      (b.stubValues defaultKey).filterMap (·.stepBy? segment key) := by
  simp only [stubValues, Binding.entry, Binding.child, Binding.document, List.filterMap_filterMap,
    Node.lookupKeyed?_append aligned, Option.getD_some]

/-- Where no stub has a value for a list, none has one for its entries. -/
theorem stubValues_entry_of_absent {b : Binding} (aligned : b.IsAligned) (segment key : String)
    (absent : b.stubValues defaultKey = []) : (b.entry segment key).stubValues defaultKey = [] := by
  rw [stubValues_entry aligned, absent, List.filterMap_nil]

end Binding

section

variable {defaultKey : String}

theorem Node.stepBy?_isPlainData {node next : Node} {segment key : String}
    (plain : node.isPlainData = true) (step : node.stepBy? segment key = some next) :
    next.isPlainData = true := by
  obtain ⟨value, annotations, source⟩ := node
  rw [isPlainData, isDataWith, Bool.and_eq_true] at plain
  cases value with
  | map fields =>
    rw [Value.isDataWith, fieldsAreData_iff] at plain
    exact (plain.2 _ (Fields.mem_of_find? step)).2
  | list items =>
    rw [Value.isDataWith, itemsAreData_iff] at plain
    refine plain.2 next ?_
    simp only [stepBy?] at step
    split at step
    · obtain ⟨position, -, found⟩ := Option.bind_eq_some_iff.mp step
      exact List.mem_of_getElem? found
    · exact List.mem_of_find?_eq_some step
  | _ => cases step

theorem Node.lookupKeyed?_isPlainData {root next : Node} {path : List String}
    {keys : List (Option String)} (plain : root.isPlainData = true)
    (found : root.lookupKeyed? defaultKey path keys = some next) : next.isPlainData = true := by
  induction path generalizing root keys with
  | nil =>
    cases found
    exact plain
  | cons segment path ih =>
    rw [lookupKeyed?] at found
    split at found
    · next middle step => exact ih (Node.stepBy?_isPlainData plain step) found
    · cases found

theorem Binding.stubValues_isPlainData (defaultKey : String) {b : Binding}
    (plain : ∀ stub ∈ b.document.stubs, stub.isPlainData = true) :
    ∀ value ∈ b.stubValues defaultKey, value.isPlainData = true := by
  intro value member
  obtain ⟨stub, known, found⟩ := List.mem_filterMap.mp member
  exact Node.lookupKeyed?_isPlainData (plain stub known) found

/-- Plain stubs override with their first value. -/
theorem Binding.overrideValue?_of_plainData {b : Binding}
    (plain : ∀ stub ∈ b.document.stubs, stub.isPlainData = true) :
    b.overrideValue? defaultKey = (b.stubValues defaultKey).head? := by
  have values := Binding.stubValues_isPlainData defaultKey plain
  rw [Binding.overrideValue?]
  change (b.stubValues defaultKey).find? _ = _
  cases given : b.stubValues defaultKey with
  | nil => rfl
  | cons value rest =>
    have first := values value (given ▸ List.mem_cons_self)
    obtain ⟨content, annotations, source⟩ := value
    rw [Node.isPlainData, Node.isDataWith, Bool.and_eq_true] at first
    obtain rfl := Annotations.eq_of_isPlain first.1
    rfl

/-- The node with the mark of a value that is taken from a stub, and no other. -/
def Node.asMerged (node : Node) : Node := { node with annotations := { merged := true } }

theorem Node.overridden_of_plainData {node stub : Node} (own : node.annotations = {})
    (plain : stub.isPlainData = true) : node.overridden stub false = stub.asMerged := by
  obtain ⟨value, annotations, source⟩ := stub
  rw [isPlainData, isDataWith, Bool.and_eq_true] at plain
  obtain rfl := Annotations.eq_of_isPlain plain.1
  simp [overridden, asMerged, own, Annotations.clearIssue]

theorem Node.isInert_asMerged {node : Node} (plain : node.isPlainData = true) :
    node.asMerged.isInert = true := by
  have inert := Node.isInert_of_isPlainData plain
  obtain ⟨value, annotations, source⟩ := node
  simp only [isInert, asMerged, isDataWith, Bool.and_eq_true] at inert ⊢
  exact ⟨by simp [Annotations.isInert], inert.2⟩

/-! ### Places without stub values -/

variable {b : Binding}

theorem stubOverride?_of_plainData {node : Node} (own : node.annotations = {})
    (plain : ∀ stub ∈ b.document.stubs, stub.isPlainData = true) :
    stubOverride? defaultKey node b = (b.stubValues defaultKey).head?.map Node.asMerged := by
  rw [stubOverride?, own, Binding.overrideValue?_of_plainData plain]
  have values := Binding.stubValues_isPlainData defaultKey plain
  cases given : b.stubValues defaultKey with
  | nil => rfl
  | cons value rest =>
    have first := values value (given ▸ List.mem_cons_self)
    simp only [List.head?_cons, Option.map_some]
    rw [← Node.overridden_of_plainData own first]
    rfl

theorem mapOverride?_of_plainData {node : Node} (own : node.annotations = {})
    (plain : ∀ stub ∈ b.document.stubs, stub.isPlainData = true) :
    mapOverride? defaultKey node b =
      match (b.stubValues defaultKey).head? with
      | none | some ⟨.map _, _, _⟩ => none
      | some value => some value.asMerged := by
  rw [mapOverride?, own, Binding.overrideValue?_of_plainData plain]
  have values := Binding.stubValues_isPlainData defaultKey plain
  cases given : b.stubValues defaultKey with
  | nil => rfl
  | cons value rest =>
    have first := values value (given ▸ List.mem_cons_self)
    have same := Node.overridden_of_plainData own first
    obtain ⟨content, annotations, source⟩ := value
    cases content <;> first | rfl | exact congrArg some same

theorem seedFields_eq_map (fields : Fields Node) (b : Binding) :
    seedFields defaultKey fields b = fields.map fun field =>
      (field.1, if field.1 = directiveKey then field.2
        else seedOverrides defaultKey field.2 (b.child field.1)) := by
  induction fields with
  | nil => rw [seedFields, List.map_nil]
  | cons field rest ih => rw [seedFields, List.map_cons, ih]

theorem seedItems_eq_self {key : String} {items : List Node} {index : Nat}
    (same : ∀ item ∈ items, ∀ segment, seedOverrides defaultKey item (b.entry segment key) = item) :
    seedItems defaultKey key index items b = items := by
  induction items generalizing index with
  | nil => rw [seedItems]
  | cons item rest ih =>
    rw [seedItems, same item List.mem_cons_self,
      ih fun item member => same item (List.mem_cons_of_mem _ member)]

theorem mem_seedItems {key : String} {index : Nat} {items : List Node} {node : Node}
    (member : node ∈ seedItems defaultKey key index items b) :
    ∃ item ∈ items, ∃ segment, node = seedOverrides defaultKey item (b.entry segment key) := by
  induction items generalizing index with
  | nil =>
    rw [seedItems] at member
    cases member
  | cons item rest ih =>
    rw [seedItems] at member
    rcases List.mem_cons.mp member with rfl | later
    · exact ⟨item, List.mem_cons_self, _, rfl⟩
    · obtain ⟨other, known, seeded⟩ := ih later
      exact ⟨other, List.mem_cons_of_mem _ known, seeded⟩

theorem shapeIsOpen_of_data {fields : Fields Node}
    (ordinary : ∀ field ∈ fields, controlSuffix? field.1 = none) : shapeIsOpen fields = false := by
  simp only [shapeIsOpen, find?_directiveKey_of_data ordinary, Option.bind_none, Option.any_none,
    Bool.or_false, Fields.keys, List.any_map, List.any_eq_false, Function.comp_apply]
  intro field member
  simp [ordinary field member]

theorem listDirective?_any_of_data {allowed : Annotations → Bool} {items : List Node}
    (data : ∀ item ∈ items, item.isDataWith allowed = true) :
    (items.any fun entry => entry.listDirective?.isSome) = false := by
  simp only [List.any_eq_false]
  intro item member
  simp [Node.listDirective?_of_data (data item member)]

/-- Without stubs, nothing is put into a document. -/
theorem seedOverrides_of_noStubs {node : Node} (noStubs : b.document.stubs = []) : seedOverrides defaultKey node b = node := by
  induction node using Node.treeInduction generalizing b with
  | list items annotations source ih =>
    rw [seedOverrides]
    rw [stubOverride?_of_noStubs noStubs,
      seedItems_eq_self fun item member segment => ih item member (by exact noStubs)]
    simp only [ite_self]
  | map fields annotations source ih =>
    have same : seedFields defaultKey fields b = fields := by
      rw [seedFields_eq_map]
      refine (List.map_congr_left fun field member => ?_).trans (List.map_id' fields)
      rw [ih field member (by exact noStubs), ite_self]
    rw [seedOverrides]
    rw [mapOverride?_of_noStubs noStubs, same]
    simp only [ite_self]
  | leaf value annotations source notList notMap =>
    rw [seedOverrides]
    · simp only [expressionOverride?_of_noStubs noStubs, stubOverride?_of_noStubs noStubs,
        Option.getD_none]
      split
      · rfl
      · split <;> rfl
    · exact fun fields _ same _ => notMap fields same
    · exact fun items _ same _ => notList items same

/-- A map that no stub overrides as a whole is seeded field by field. -/
theorem seedOverrides_map_of_kept {fields : Fields Node} {source : String}
    (ordinary : ∀ field ∈ fields, controlSuffix? field.1 = none)
    (kept : mapOverride? defaultKey ⟨.map fields, {}, source⟩ b = none) :
    seedOverrides defaultKey ⟨.map fields, {}, source⟩ b =
      ⟨.map (fields.map fun field =>
        (field.1, seedOverrides defaultKey field.2 (b.child field.1))), {}, source⟩ := by
  have seeded : seedFields defaultKey fields b =
      fields.map fun field => (field.1, seedOverrides defaultKey field.2 (b.child field.1)) := by
    rw [seedFields_eq_map]
    refine List.map_congr_left fun field member => ?_
    rw [if_neg (ne_directiveKey (ordinary field member))]
  rw [seedOverrides]
  simp only [Annotations.blocksOverride, Bool.or_self, Bool.false_eq_true, if_false]
  rw [kept, shapeIsOpen_of_data ordinary, seeded]
  rfl

/-- The seeded form of a map of plain data. -/
theorem seedOverrides_map {fields : Fields Node} {source : String}
    (ordinary : ∀ field ∈ fields, controlSuffix? field.1 = none)
    (plain : ∀ stub ∈ b.document.stubs, stub.isPlainData = true) :
    seedOverrides defaultKey ⟨.map fields, {}, source⟩ b =
      match (b.stubValues defaultKey).head? with
      | none | some ⟨.map _, _, _⟩ =>
        ⟨.map (fields.map fun field =>
          (field.1, seedOverrides defaultKey field.2 (b.child field.1))), {}, source⟩
      | some value => value.asMerged := by
  have own := @mapOverride?_of_plainData defaultKey b ⟨.map fields, {}, source⟩ rfl plain
  rcases given : (b.stubValues defaultKey).head? with _ | ⟨content, a, origin⟩
  · rw [given] at own
    exact seedOverrides_map_of_kept ordinary own
  · rw [given] at own
    have taken : ∀ value : Node,
        mapOverride? defaultKey ⟨.map fields, {}, source⟩ b = some value →
        seedOverrides defaultKey ⟨.map fields, {}, source⟩ b = value := by
      intro value own
      rw [seedOverrides]
      simp only [Annotations.blocksOverride, Bool.or_self, Bool.false_eq_true, if_false, own]
    cases content with
    | map _ => exact seedOverrides_map_of_kept ordinary own
    | _ => exact taken _ own

/-- The seeded form of a list of plain data. -/
theorem seedOverrides_list {items : List Node} {source : String}
    (data : ∀ item ∈ items, item.isPlainData = true)
    (plain : ∀ stub ∈ b.document.stubs, stub.isPlainData = true) :
    seedOverrides defaultKey ⟨.list items, {}, source⟩ b =
      match (b.stubValues defaultKey).head? with
      | none => ⟨.list (seedItems defaultKey defaultKey 0 items b), {}, source⟩
      | some value => value.asMerged := by
  rw [seedOverrides]
  simp only [Annotations.blocksOverride, Bool.or_self, Bool.false_eq_true, if_false]
  rw [listDirective?_any_of_data data, stubOverride?_of_plainData rfl plain]
  cases (b.stubValues defaultKey).head? <;> rfl

/-- The seeded form of a leaf of plain data. -/
theorem seedOverrides_leaf {value : Value} {source : String}
    (notList : ∀ items, value ≠ .list items) (notMap : ∀ fields, value ≠ .map fields)
    (data : (Node.mk value {} source).isPlainData = true)
    (plain : ∀ stub ∈ b.document.stubs, stub.isPlainData = true) :
    seedOverrides defaultKey ⟨value, {}, source⟩ b =
      ((b.stubValues defaultKey).head?.map Node.asMerged).getD ⟨value, {}, source⟩ := by
  have noExpression := Node.expr?_of_data data
  have own : stubOverride? defaultKey ⟨value, {}, source⟩ b =
      (b.stubValues defaultKey).head?.map Node.asMerged := stubOverride?_of_plainData rfl plain
  rw [← own]
  cases value with
  | list items => exact absurd rfl (notList items)
  | map fields => exact absurd rfl (notMap fields)
  | _ =>
    simp only [seedOverrides]
    simp [Annotations.blocksOverride, noExpression]

/-- Where no stub has a value, plain data is seeded with nothing. -/
theorem seedOverrides_eq_self {node : Node} (data : node.isPlainData = true)
    (aligned : b.IsAligned) (plain : ∀ stub ∈ b.document.stubs, stub.isPlainData = true)
    (absent : b.stubValues defaultKey = []) : seedOverrides defaultKey node b = node := by
  induction node using Node.treeInduction generalizing b with
  | list items annotations source ih =>
    simp only [Node.isPlainData, Node.isDataWith, Value.isDataWith, Bool.and_eq_true,
      itemsAreData_iff] at data ih
    obtain rfl := Annotations.eq_of_isPlain data.1
    rw [seedOverrides_list data.2 plain, absent, List.head?_nil]
    simp only [Node.mk.injEq, Value.list.injEq, and_self, and_true]
    exact seedItems_eq_self fun item member segment =>
      ih item member (data.2 item member) (aligned.entry segment _) plain
        (Binding.stubValues_entry_of_absent aligned segment _ absent)
  | map fields annotations source ih =>
    simp only [Node.isPlainData, Node.isDataWith, Value.isDataWith, Bool.and_eq_true,
      fieldsAreData_iff] at data ih
    obtain rfl := Annotations.eq_of_isPlain data.1
    rw [seedOverrides_map (fun field member => (data.2 field member).1) plain, absent,
      List.head?_nil]
    simp only [Node.mk.injEq, Value.map.injEq, and_self, and_true]
    refine (List.map_congr_left fun field member => ?_).trans (List.map_id' fields)
    have below : (b.child field.1).stubValues defaultKey = [] := by
      rw [Binding.stubValues_child aligned, absent, List.filterMap_nil]
    rw [ih field member (data.2 field member).2 (aligned.child field.1) plain below]
  | leaf value annotations source notList notMap =>
    have own := data
    simp only [Node.isPlainData, Node.isDataWith, Bool.and_eq_true] at own
    obtain rfl := Annotations.eq_of_isPlain own.1
    rw [seedOverrides_leaf notList notMap data plain, absent]
    rfl

/-- A seeded template is inert. -/
theorem isInert_seedOverrides {node : Node} (data : node.isPlainData = true)
    (aligned : b.IsAligned) (plain : ∀ stub ∈ b.document.stubs, stub.isPlainData = true) :
    (seedOverrides defaultKey node b).isInert = true := by
  have values := Binding.stubValues_isPlainData defaultKey plain
  induction node using Node.treeInduction generalizing b with
  | list items annotations source ih =>
    cases given : b.stubValues defaultKey with
    | nil =>
      rw [seedOverrides_eq_self data aligned plain given]
      exact Node.isInert_of_isPlainData data
    | cons value rest =>
      simp only [Node.isPlainData, Node.isDataWith, Value.isDataWith, Bool.and_eq_true,
        itemsAreData_iff] at data
      obtain rfl := Annotations.eq_of_isPlain data.1
      rw [seedOverrides_list data.2 plain, given, List.head?_cons]
      exact Node.isInert_asMerged (values value (given ▸ List.mem_cons_self))
  | map fields annotations source ih =>
    simp only [Node.isPlainData, Node.isDataWith, Value.isDataWith, Bool.and_eq_true,
      fieldsAreData_iff] at data ih
    obtain rfl := Annotations.eq_of_isPlain data.1
    have kept : (Node.mk (.map (fields.map fun field =>
        (field.1, seedOverrides defaultKey field.2 (b.child field.1)))) {} source).isInert = true := by
      simp only [Node.isInert, Node.isDataWith, Value.isDataWith, Bool.and_eq_true,
        fieldsAreData_iff, List.mem_map]
      refine ⟨rfl, ?_⟩
      rintro _ ⟨field, member, rfl⟩
      exact ⟨(data.2 field member).1, ih field member (data.2 field member).2
        (aligned.child field.1) plain (Binding.stubValues_isPlainData defaultKey plain)⟩
    rw [seedOverrides_map (fun field member => (data.2 field member).1) plain]
    split
    · exact kept
    · exact kept
    · next value _ given => exact Node.isInert_asMerged (values value (List.mem_of_head? given))
  | leaf value annotations source notList notMap =>
    have own := data
    simp only [Node.isPlainData, Node.isDataWith, Bool.and_eq_true] at own
    obtain rfl := Annotations.eq_of_isPlain own.1
    rw [seedOverrides_leaf notList notMap data plain]
    cases given : b.stubValues defaultKey with
    | nil => exact Node.isInert_of_isPlainData data
    | cons value rest => exact Node.isInert_asMerged (values value (given ▸ List.mem_cons_self))

/-! ### The seeded template is settled -/

variable {engine : Engine} {deeper : Deeper}

theorem flowFields_of_plainData {below : FlowBelow} {fields : Fields Node}
    (ordinary : ∀ field ∈ fields, controlSuffix? field.1 = none)
    (each : ∀ field ∈ fields, below field.2 (b.child field.1) true =
      pure (some (seedOverrides defaultKey field.2 (b.child field.1)))) :
    flowFields below b true fields = pure (fields.map fun field =>
      (field.1, seedOverrides defaultKey field.2 (b.child field.1))) := by
  induction fields with
  | nil => rfl
  | cons field rest ih =>
    exact flowFields_cons_of_eq (ne_directiveKey (ordinary field List.mem_cons_self))
      (each field List.mem_cons_self)
      (ih (fun field member => ordinary field (List.mem_cons_of_mem _ member))
        fun field member => each field (List.mem_cons_of_mem _ member))

theorem flowEntries_of_plainData {below : FlowBelow} {key : String} {items : List Node} {index : Nat}
    (data : ∀ item ∈ items, item.isPlainData = true)
    (each : ∀ item ∈ items, ∀ segment, below item (b.entry segment key) true =
      pure (some (seedOverrides defaultKey item (b.entry segment key)))) :
    flowEntries below key b true index items = pure (seedItems defaultKey key index items b) := by
  induction items generalizing index with
  | nil => rfl
  | cons item rest ih =>
    rw [seedItems]
    exact flowEntries_cons_of_eq (Node.listDirective?_of_data (data item List.mem_cons_self))
      (each item List.mem_cons_self _)
      (ih (fun item member => data item (List.mem_cons_of_mem _ member))
        fun item member => each item (List.mem_cons_of_mem _ member))

/-- A pass puts the stub values into plain data, as seeding does. -/
theorem flowNode_of_plainData {node : Node} (data : node.isPlainData = true) {fuel : Nat}
    (enough : node.height < fuel) (aligned : b.IsAligned)
    (plain : ∀ stub ∈ b.document.stubs, stub.isPlainData = true) :
    flowNode engine deeper fuel node b true =
      pure (some (seedOverrides engine.defaultKey node b)) := by
  induction node using Node.treeInduction generalizing b fuel with
  | list items annotations source ih =>
    obtain ⟨fuel, rfl⟩ : ∃ n, fuel = n + 1 := ⟨fuel - 1, by omega⟩
    simp only [Node.isPlainData, Node.isDataWith, Value.isDataWith, Bool.and_eq_true,
      itemsAreData_iff] at data
    obtain rfl := Annotations.eq_of_isPlain data.1
    rw [Node.height, Value.height] at enough
    have own : stubOverride? engine.defaultKey ⟨.list items, {}, source⟩ b =
        (b.stubValues engine.defaultKey).head?.map Node.asMerged := stubOverride?_of_plainData rfl plain
    rw [flowNode, seedOverrides_list data.2 plain]
    cases given : (b.stubValues engine.defaultKey).head? with
    | none =>
      rw [given] at own
      refine flowList_of_data (firstDirective?_of_data data.2) rfl own ?_
      exact flowEntries_of_plainData data.2 fun item member segment =>
        ih item member (data.2 item member)
          (Nat.lt_of_le_of_lt (height_le_itemsHeight member) (by omega)) (aligned.entry segment _)
          plain
    | some value =>
      rw [given] at own
      simp only [flowList, flowListDirective, firstDirective?_of_data data.2]
      simp [own]
  | map fields annotations source ih =>
    obtain ⟨fuel, rfl⟩ : ∃ n, fuel = n + 1 := ⟨fuel - 1, by omega⟩
    simp only [Node.isPlainData, Node.isDataWith, Value.isDataWith, Bool.and_eq_true,
      fieldsAreData_iff] at data
    obtain rfl := Annotations.eq_of_isPlain data.1
    rw [Node.height, Value.height] at enough
    have own : mapOverride? engine.defaultKey ⟨.map fields, {}, source⟩ b = _ :=
      mapOverride?_of_plainData rfl plain
    have ordinary := fun field member => (data.2 field member).1
    have kept : mapOverride? engine.defaultKey ⟨.map fields, {}, source⟩ b = none →
        flowMap engine deeper (flowNode engine deeper fuel) ⟨.map fields, {}, source⟩ fields b true =
          pure (some ⟨.map (fields.map fun field =>
            (field.1, seedOverrides engine.defaultKey field.2 (b.child field.1))), {}, source⟩) :=
      fun own => flowMap_of_data ordinary rfl own
        (flowFields_of_plainData ordinary fun field member => ih field member (data.2 field member).2
          (Nat.lt_of_le_of_lt (height_le_fieldsHeight member) (by omega)) (aligned.child field.1)
          plain)
    rw [flowNode, seedOverrides_map ordinary plain]
    rcases given : (b.stubValues engine.defaultKey).head? with _ | ⟨value, a, origin⟩
    · rw [given] at own
      exact kept own
    · rw [given] at own
      cases value with
      | map _ => exact kept own
      | _ => simp [flowMap, own]
  | leaf value annotations source notList notMap =>
    obtain ⟨fuel, rfl⟩ : ∃ n, fuel = n + 1 := ⟨fuel - 1, by omega⟩
    have own := data
    simp only [Node.isPlainData, Node.isDataWith, Bool.and_eq_true] at own
    obtain rfl := Annotations.eq_of_isPlain own.1
    have taken : stubOverride? engine.defaultKey ⟨value, {}, source⟩ b =
        (b.stubValues engine.defaultKey).head?.map Node.asMerged := stubOverride?_of_plainData rfl plain
    rw [seedOverrides_leaf notList notMap data plain, ← taken,
      flowNode_leaf_of_data notList notMap own.2]
    rfl

/-- Plain data for which no stub has a value flows to itself. -/
theorem flowNode_of_absent {node : Node} (data : node.isPlainData = true) {fuel : Nat}
    (enough : node.height < fuel) (aligned : b.IsAligned)
    (plain : ∀ stub ∈ b.document.stubs, stub.isPlainData = true)
    (absent : b.stubValues engine.defaultKey = []) :
    flowNode engine deeper fuel node b true = pure (some node) := by
  rw [flowNode_of_plainData data enough aligned plain,
    seedOverrides_eq_self data aligned plain absent]

/-- A pass leaves the seeded template as it is. The pass may see another snapshot than the one that
was seeded, as long as the same stub values stand at the place. -/
theorem flowNode_seedOverrides {node : Node} (data : node.isPlainData = true) {b' : Binding}
    {fuel : Nat} (enough : (seedOverrides engine.defaultKey node b).height < fuel)
    (aligned : b.IsAligned) (aligned' : b'.IsAligned)
    (plain : ∀ stub ∈ b.document.stubs, stub.isPlainData = true)
    (plain' : ∀ stub ∈ b'.document.stubs, stub.isPlainData = true)
    (agree : b'.stubValues engine.defaultKey = b.stubValues engine.defaultKey) :
    flowNode engine deeper fuel (seedOverrides engine.defaultKey node b) b' true =
      pure (some (seedOverrides engine.defaultKey node b)) := by
  induction node using Node.treeInduction generalizing b b' fuel with
  | list items annotations source ih =>
    cases given : b.stubValues engine.defaultKey with
    | nil =>
      rw [seedOverrides_eq_self data aligned plain given] at enough ⊢
      exact flowNode_of_absent data enough aligned' plain' (agree.trans given)
    | cons first rest =>
      simp only [Node.isPlainData, Node.isDataWith, Value.isDataWith, Bool.and_eq_true,
        itemsAreData_iff] at data
      obtain rfl := Annotations.eq_of_isPlain data.1
      rw [seedOverrides_list data.2 plain, given, List.head?_cons] at enough ⊢
      have taken := Binding.stubValues_isPlainData engine.defaultKey plain first (given ▸ List.mem_cons_self)
      exact flowNode_inert (Node.isInert_asMerged taken) enough (.inr (.inl rfl))
  | map fields annotations source ih =>
    simp only [Node.isPlainData, Node.isDataWith, Value.isDataWith, Bool.and_eq_true,
      fieldsAreData_iff] at data ih
    obtain rfl := Annotations.eq_of_isPlain data.1
    rw [seedOverrides_map (fun field member => (data.2 field member).1) plain] at enough ⊢
    generalize shape : (fields.map fun field =>
      (field.1, seedOverrides engine.defaultKey field.2 (b.child field.1))) = seeded at enough ⊢
    have ordinary : ∀ field ∈ seeded, controlSuffix? field.1 = none := by
      simp only [← shape, List.mem_map]
      rintro _ ⟨field, member, rfl⟩
      exact (data.2 field member).1
    have each : ∀ field ∈ seeded, ∀ fuel, field.2.height < fuel →
        flowNode engine deeper fuel field.2 (b'.child field.1) true = pure (some field.2) := by
      simp only [← shape, List.mem_map]
      rintro _ ⟨field, member, rfl⟩ fuel enough
      refine ih field member (data.2 field member).2 enough (aligned.child field.1)
        (aligned'.child field.1) plain plain' ?_
      rw [Binding.stubValues_child aligned', Binding.stubValues_child aligned, agree]
    have kept : (Node.mk (.map seeded) {} source).height < fuel →
        mapOverride? engine.defaultKey ⟨.map seeded, {}, source⟩ b' = none →
        flowNode engine deeper fuel ⟨.map seeded, {}, source⟩ b' true =
          pure (some ⟨.map seeded, {}, source⟩) := by
      intro enough own
      obtain ⟨fuel, rfl⟩ : ∃ n, fuel = n + 1 := ⟨fuel - 1, by omega⟩
      rw [Node.height, Value.height] at enough
      rw [flowNode]
      refine flowMap_of_data ordinary rfl own (flowFields_eq_pure fun field member => .inr ?_)
      have lower := height_le_fieldsHeight member
      exact each field member fuel (by omega)
    have own : mapOverride? engine.defaultKey ⟨.map seeded, {}, source⟩ b' =
        match (b'.stubValues engine.defaultKey).head? with
        | none | some ⟨.map _, _, _⟩ => none
        | some value => some value.asMerged := mapOverride?_of_plainData rfl plain'
    rw [agree] at own
    rcases given : (b.stubValues engine.defaultKey).head? with _ | value
    · rw [given] at enough own
      exact kept enough own
    · have taken := Binding.stubValues_isPlainData engine.defaultKey plain value (List.mem_of_head? given)
      have replaced : value.asMerged.height < fuel →
          flowNode engine deeper fuel value.asMerged b' true = pure (some value.asMerged) :=
        fun enough => flowNode_inert (Node.isInert_asMerged taken) enough (.inr (.inl rfl))
      rw [given] at enough own
      obtain ⟨content, annotations, origin⟩ := value
      cases content with
      | map _ => exact kept enough own
      | _ => exact replaced enough
  | leaf value annotations source notList notMap =>
    cases given : b.stubValues engine.defaultKey with
    | nil =>
      rw [seedOverrides_eq_self data aligned plain given] at enough ⊢
      exact flowNode_of_absent data enough aligned' plain' (agree.trans given)
    | cons first rest =>
      have own := data
      simp only [Node.isPlainData, Node.isDataWith, Bool.and_eq_true] at own
      obtain rfl := Annotations.eq_of_isPlain own.1
      rw [seedOverrides_leaf notList notMap data plain, given, List.head?_cons] at enough ⊢
      have taken := Binding.stubValues_isPlainData engine.defaultKey plain first (given ▸ List.mem_cons_self)
      exact flowNode_inert (Node.isInert_asMerged taken) enough (.inr (.inl rfl))

/-! ### The seeded template is the overlay -/

mutual

/-- The tree without its annotations. -/
def Node.bare : Node → Node
  | ⟨value, _, source⟩ => ⟨Value.bare value, {}, source⟩

/-- The value without the annotations in it. -/
def Value.bare : Value → Value
  | .list items => .list (bareItems items)
  | .map fields => .map (bareFields fields)
  | other => other

/-- The items without their annotations. -/
def bareItems : List Node → List Node
  | [] => []
  | item :: rest => item.bare :: bareItems rest

/-- The fields without their annotations. -/
def bareFields : List (String × Node) → List (String × Node)
  | [] => []
  | (key, child) :: rest => (key, child.bare) :: bareFields rest

end

theorem bareItems_eq_map (items : List Node) : bareItems items = items.map Node.bare := by
  induction items with
  | nil => rw [bareItems, List.map_nil]
  | cons item rest ih => rw [bareItems, List.map_cons, ih]

theorem bareFields_eq_map (fields : Fields Node) :
    bareFields fields = fields.map fun field => (field.1, field.2.bare) := by
  induction fields with
  | nil => rw [bareFields, List.map_nil]
  | cons field rest ih => rw [bareFields, List.map_cons, ih]

/-- Annotations do not show in the value of a document. -/
theorem Node.toJson_bare (node : Node) : node.bare.toJson = node.toJson := by
  induction node using Node.treeInduction with
  | list items annotations source ih =>
    have items : toJsonItems (bareItems items) = toJsonItems items := by
      induction items with
      | nil => rw [bareItems]
      | cons item rest others =>
        rw [bareItems, toJsonItems, toJsonItems, ih item List.mem_cons_self,
          others fun item member => ih item (List.mem_cons_of_mem _ member)]
    rw [bare, Value.bare, toJson, toJson, items]
  | map fields annotations source ih =>
    have fields : toJsonMembers (bareFields fields) = toJsonMembers fields := by
      induction fields with
      | nil => rw [bareFields]
      | cons field rest others =>
        rw [bareFields, toJsonMembers, toJsonMembers, ih field List.mem_cons_self,
          others fun field member => ih field (List.mem_cons_of_mem _ member)]
    rw [bare, Value.bare, toJson, toJson, fields]
  | leaf value annotations source notList notMap =>
    cases value with
    | list items => exact absurd rfl (notList items)
    | map fields => exact absurd rfl (notMap fields)
    | template body =>
      obtain ⟨content, _, _⟩ := body
      cases content <;> rfl
    | _ => rfl

theorem Node.bare_of_plainData {node : Node} (plain : node.isPlainData = true) :
    node.bare = node := by
  induction node using Node.treeInduction with
  | list items annotations source ih =>
    simp only [isPlainData, isDataWith, Value.isDataWith, Bool.and_eq_true, itemsAreData_iff]
      at plain ih
    obtain rfl := Annotations.eq_of_isPlain plain.1
    rw [bare, Value.bare, bareItems_eq_map,
      List.map_congr_left fun item member => ih item member (plain.2 item member), List.map_id']
  | map fields annotations source ih =>
    simp only [isPlainData, isDataWith, Value.isDataWith, Bool.and_eq_true, fieldsAreData_iff]
      at plain ih
    obtain rfl := Annotations.eq_of_isPlain plain.1
    have each : (fields.map fun field => (field.1, field.2.bare)) = fields := by
      refine (List.map_congr_left fun field member => ?_).trans (List.map_id' fields)
      rw [ih field member (plain.2 field member).2]
    rw [bare, Value.bare, bareFields_eq_map, each]
  | leaf value annotations source notList notMap =>
    simp only [isPlainData, isDataWith, Bool.and_eq_true] at plain
    obtain rfl := Annotations.eq_of_isPlain plain.1
    cases value <;> simp_all [bare, Value.bare]

theorem Node.bare_asMerged {node : Node} (plain : node.isPlainData = true) :
    node.asMerged.bare = node := by
  conv_rhs => rw [← Node.bare_of_plainData plain]
  obtain ⟨value, annotations, source⟩ := node
  rw [asMerged, bare, bare]

theorem overlayFields_eq_map (defaultKey : String) (fields : Fields Node) (values : List Node) :
    overlayFields defaultKey fields values = fields.map fun field =>
      (field.1, overlay defaultKey field.2
        (values.filterMap (·.step? field.1 defaultKey))) := by
  induction fields with
  | nil => rw [overlayFields, List.map_nil]
  | cons field rest ih => rw [overlayFields, List.map_cons, ih]

/-- The seeded template is the overlay, up to annotations. -/
theorem bare_seedOverrides {node : Node} (data : node.isPlainData = true)
    (aligned : b.IsAligned) (plain : ∀ stub ∈ b.document.stubs, stub.isPlainData = true) :
    (seedOverrides defaultKey node b).bare =
      overlay defaultKey node (b.stubValues defaultKey) := by
  have values := Binding.stubValues_isPlainData defaultKey plain
  induction node using Node.treeInduction generalizing b with
  | list items annotations source ih =>
    have own := data
    simp only [Node.isPlainData, Node.isDataWith, Value.isDataWith, Bool.and_eq_true,
      itemsAreData_iff] at own
    obtain rfl := Annotations.eq_of_isPlain own.1
    rw [overlay]
    · cases given : b.stubValues defaultKey with
      | nil => rw [seedOverrides_eq_self data aligned plain given, Node.bare_of_plainData data]; rfl
      | cons value rest =>
        rw [seedOverrides_list own.2 plain, given]
        exact Node.bare_asMerged (values value (given ▸ List.mem_cons_self))
    · simp
  | map fields annotations source ih =>
    simp only [Node.isPlainData, Node.isDataWith, Value.isDataWith, Bool.and_eq_true,
      fieldsAreData_iff] at data ih
    obtain rfl := Annotations.eq_of_isPlain data.1
    have kept : (Node.mk (.map (fields.map fun field =>
        (field.1, seedOverrides defaultKey field.2 (b.child field.1)))) {} source).bare =
        ⟨.map (overlayFields defaultKey fields (b.stubValues defaultKey)), {}, source⟩ := by
      rw [Node.bare, Value.bare, bareFields_eq_map, overlayFields_eq_map, List.map_map]
      refine congrArg (fun fields => Node.mk (.map fields) {} source) ?_
      refine List.map_congr_left fun field member => ?_
      rw [Function.comp_apply, ← Binding.stubValues_child aligned,
        ih field member (data.2 field member).2 (aligned.child field.1) plain
          (Binding.stubValues_isPlainData defaultKey plain)]
    rw [seedOverrides_map (fun field member => (data.2 field member).1) plain, overlay]
    rcases given : (b.stubValues defaultKey).head? with _ | value
    · exact kept
    · have taken := values value (List.mem_of_head? given)
      have replaced := Node.bare_asMerged taken
      obtain ⟨content, annotations, origin⟩ := value
      cases content with
      | map _ => exact kept
      | _ => exact replaced
  | leaf value annotations source notList notMap =>
    have own := data
    simp only [Node.isPlainData, Node.isDataWith, Bool.and_eq_true] at own
    obtain rfl := Annotations.eq_of_isPlain own.1
    rw [seedOverrides_leaf notList notMap data plain, overlay]
    · cases given : b.stubValues defaultKey with
      | nil => exact Node.bare_of_plainData data
      | cons value rest => exact Node.bare_asMerged (values value (given ▸ List.mem_cons_self))
    · rintro fields _ _ shape
      cases shape
      exact notMap fields rfl

end

end Cascade
