import Cascade.Proofs.Overlay

/-!
# Passes over inert data

Plain stubs put values into inert data that no stub overrides again, so a pass over inert data
always makes inert data of it. What a pass or the seeding puts at a place depends on nothing but the
stub values there.

## Main statements

* `exists_flowFields`, `exists_flowEntries`: containers whose children flow to something.
* `flowNode_of_inert`: a pass makes inert data of inert data.
* `seedOverrides_cases`, `seedOverrides_congr`: what seeding does with plain data.
-/

namespace Cascade

/-! ### What a pass makes of inert data -/

section

variable {engine : Engine} {deeper : Deeper} {b : Binding}

theorem Node.isInert_list {items : List Node} {annotations : Annotations} {source : String} :
    (Node.mk (.list items) annotations source).isInert = true ↔
      annotations.isInert = true ∧ ∀ item ∈ items, item.isInert = true := by
  rw [isInert, isDataWith, Value.isDataWith, Bool.and_eq_true, itemsAreData_iff]
  rfl

theorem Node.isInert_map {fields : Fields Node} {annotations : Annotations} {source : String} :
    (Node.mk (.map fields) annotations source).isInert = true ↔
      annotations.isInert = true ∧
        ∀ field ∈ fields, controlSuffix? field.1 = none ∧ field.2.isInert = true := by
  rw [isInert, isDataWith, Value.isDataWith, Bool.and_eq_true, fieldsAreData_iff]
  rfl

/-- What plain stubs put in place of inert data is inert, and no stub overrides it again. -/
theorem isInert_stubOverride? {defaultKey : String} {node result : Node}
    (inert : node.annotations.isInert = true)
    (plain : ∀ stub ∈ b.document.stubs, stub.isPlainData = true)
    (overridden : stubOverride? defaultKey node b = some result) :
    ∃ value : Node, value.isPlainData = true ∧ result = value.asMerged := by
  have values := Binding.stubValues_isPlainData defaultKey plain
  rcases Annotations.eq_of_isInert inert with own | own
  · rw [stubOverride?_of_plainData own plain] at overridden
    obtain ⟨value, first, rfl⟩ := Option.map_eq_some_iff.mp overridden
    exact ⟨value, values value (List.mem_of_head? first), rfl⟩
  · rw [stubOverride?, own] at overridden
    cases overridden

theorem isInert_mapOverride? {defaultKey : String} {node result : Node}
    (inert : node.annotations.isInert = true)
    (plain : ∀ stub ∈ b.document.stubs, stub.isPlainData = true)
    (overridden : mapOverride? defaultKey node b = some result) :
    ∃ value : Node, value.isPlainData = true ∧ (∀ fields, value.value ≠ .map fields) ∧
      result = value.asMerged := by
  have values := Binding.stubValues_isPlainData defaultKey plain
  rcases Annotations.eq_of_isInert inert with own | own
  · rw [mapOverride?_of_plainData own plain] at overridden
    split at overridden
    · cases overridden
    · cases overridden
    · next value notMap first =>
      cases overridden
      refine ⟨value, values value (List.mem_of_head? first), fun fields shape => ?_, rfl⟩
      obtain ⟨content, a, origin⟩ := value
      obtain rfl : content = .map fields := shape
      exact notMap fields a origin rfl
  · rw [mapOverride?, own] at overridden
    cases overridden

/-- Fields that each flow to something make a map that does. -/
theorem exists_flowFields (below : FlowBelow) (overridable : Bool) {fields : Fields Node}
    (before : String × Node → Node) {P : String × Node → Node → Prop}
    (ordinary : ∀ field ∈ fields, controlSuffix? field.1 = none)
    (each : ∀ field ∈ fields, ∃ after, below (before field) (b.child field.1) overridable =
      pure (some after) ∧ P field after) :
    ∃ after : String × Node → Node,
      flowFields below b overridable (fields.map fun field => (field.1, before field)) =
        pure (fields.map fun field => (field.1, after field)) ∧
      ∀ field ∈ fields, P field (after field) := by
  have total : ∀ field : String × Node, ∃ after, field ∈ fields →
      below (before field) (b.child field.1) overridable = pure (some after) ∧ P field after := by
    intro field
    by_cases member : field ∈ fields
    · obtain ⟨after, holds⟩ := each field member
      exact ⟨after, fun _ => holds⟩
    · exact ⟨field.2, fun known => absurd known member⟩
  choose after holds using total
  refine ⟨after, ?_, fun field member => (holds field member).2⟩
  clear each
  induction fields with
  | nil => rfl
  | cons field rest ih =>
    rw [List.map_cons, List.map_cons]
    exact flowFields_cons_of_eq (ne_directiveKey (ordinary field List.mem_cons_self))
      (holds field List.mem_cons_self).1
      (ih (fun field member => ordinary field (List.mem_cons_of_mem _ member))
        fun field member => holds field (List.mem_cons_of_mem _ member))

/-- Entries that each flow to something make a list that does. -/
theorem exists_flowEntries {below : FlowBelow} {overridable : Bool} {key : String}
    {items : List Node} {index : Nat} {P : Node → Prop}
    (noDirective : ∀ item ∈ items, item.listDirective? = none)
    (each : ∀ item ∈ items, ∀ segment, ∃ after, below item (b.entry segment key) overridable =
      pure (some after) ∧ P after) :
    ∃ flowed, flowEntries below key b overridable index items = pure flowed ∧
      ∀ item ∈ flowed, P item := by
  induction items generalizing index with
  | nil => exact ⟨[], rfl, by simp⟩
  | cons item rest ih =>
    obtain ⟨after, flows, holds⟩ := each item List.mem_cons_self (item.entrySegment index key)
    obtain ⟨others, later, known⟩ := ih
      (fun item member => noDirective item (List.mem_cons_of_mem _ member))
      fun item member => each item (List.mem_cons_of_mem _ member)
    exact ⟨after :: others,
      flowEntries_cons_of_eq (noDirective item List.mem_cons_self) flows later,
      List.forall_mem_cons.mpr ⟨holds, known⟩⟩

/-- A pass over inert data under plain stubs makes inert data of it. -/
theorem flowNode_of_inert {node : Node} (inert : node.isInert = true) {fuel : Nat}
    (enough : node.height < fuel) (overridable : Bool)
    (plain : ∀ stub ∈ b.document.stubs, stub.isPlainData = true) :
    ∃ flowed : Node, flowNode engine deeper fuel node b overridable = pure (some flowed) ∧
      flowed.isInert = true := by
  obtain ⟨fuel, rfl⟩ : ∃ n, fuel = n + 1 := ⟨fuel - 1, by omega⟩
  induction node using Node.treeInduction generalizing b fuel overridable with
  | list items annotations source ih =>
    obtain ⟨own, inside⟩ := Node.isInert_list.mp inert
    rw [Node.height, Value.height] at enough
    rw [flowNode]
    have noDirective := firstDirective?_of_data inside
    cases override : if overridable && !annotations.expanded then
        stubOverride? engine.defaultKey ⟨.list items, annotations, source⟩ b else none with
    | none =>
      obtain ⟨flowed, flows, known⟩ : ∃ flowed,
          flowEntries (flowNode engine deeper fuel) (annotations.listKey engine.defaultKey) b
            (overridable && !annotations.blocksOverride) 0 items = pure flowed ∧
          ∀ item ∈ flowed, item.isInert = true := by
        refine exists_flowEntries (fun item member => Node.listDirective?_of_data
          (inside item member)) fun item member segment => ?_
        have lower := height_le_itemsHeight member
        obtain ⟨fuel, rfl⟩ : ∃ n, fuel = n + 1 := ⟨fuel - 1, by omega⟩
        exact ih item member (inside item member) (b := b.entry segment _) _ plain fuel (by omega)
      exact ⟨_, flowList_of_data noDirective (Annotations.clearIssue_of_isInert own) override flows,
        Node.isInert_list.mpr ⟨own, known⟩⟩
    | some result =>
      obtain ⟨value, known, rfl⟩ : ∃ value : Node, value.isPlainData = true ∧
          result = value.asMerged := by
        split at override
        · exact isInert_stubOverride? own plain override
        · cases override
      refine ⟨value.asMerged, ?_, Node.isInert_asMerged known⟩
      simp only [flowList, flowListDirective, noDirective, override, pure_bind]
  | map fields annotations source ih =>
    obtain ⟨own, inside⟩ := Node.isInert_map.mp inert
    rw [Node.height, Value.height] at enough
    rw [flowNode]
    have ordinary := fun field member => (inside field member).1
    cases override : if overridable then
        mapOverride? engine.defaultKey ⟨.map fields, annotations, source⟩ b else none with
    | none =>
      obtain ⟨after, flows, known⟩ : ∃ after : String × Node → Node,
          flowFields (flowNode engine deeper fuel) b (overridable && !annotations.blocksOverride)
            (fields.map fun field => (field.1, field.2)) =
              pure (fields.map fun field => (field.1, after field)) ∧
          ∀ field ∈ fields, (after field).isInert = true := by
        refine exists_flowFields _ _ Prod.snd (P := fun _ after => after.isInert = true) ordinary
          fun field member => ?_
        have lower := height_le_fieldsHeight member
        obtain ⟨fuel, rfl⟩ : ∃ n, fuel = n + 1 := ⟨fuel - 1, by omega⟩
        exact ih field member (inside field member).2 (b := b.child field.1) _ plain fuel (by omega)
      have same : (fields.map fun field => (field.1, field.2)) = fields := List.map_id' fields
      rw [same] at flows
      refine ⟨_, flowMap_of_data ordinary own override flows, Node.isInert_map.mpr ⟨own, ?_⟩⟩
      simp only [List.mem_map]
      rintro _ ⟨field, member, rfl⟩
      exact ⟨ordinary field member, known field member⟩
    | some result =>
      obtain ⟨value, known, -, rfl⟩ : ∃ value : Node, value.isPlainData = true ∧
          (∀ fields, value.value ≠ .map fields) ∧ result = value.asMerged := by
        split at override
        · exact isInert_mapOverride? own plain override
        · cases override
      refine ⟨value.asMerged, ?_, Node.isInert_asMerged known⟩
      simp only [flowMap, override]
  | leaf value annotations source notList notMap =>
    have data := inert
    rw [Node.isInert, Node.isDataWith, Bool.and_eq_true] at data
    rw [flowNode_leaf_of_data notList notMap data.2]
    refine ⟨_, rfl, ?_⟩
    rw [flowLeaf]
    cases override : if overridable then
        stubOverride? engine.defaultKey ⟨value, annotations, source⟩ b else none with
    | none => exact inert
    | some result =>
      obtain ⟨value, known, rfl⟩ : ∃ value : Node, value.isPlainData = true ∧
          result = value.asMerged := by
        split at override
        · exact isInert_stubOverride? data.1 plain override
        · cases override
      exact Node.isInert_asMerged known

/-- Seeding plain data takes a stub value for it, goes on with the fields of a map, or does
nothing. -/
theorem seedOverrides_cases (defaultKey : String) {node : Node} (data : node.isPlainData = true)
    (aligned : b.IsAligned) (plain : ∀ stub ∈ b.document.stubs, stub.isPlainData = true) :
    (∃ value : Node, value.isPlainData = true ∧
      seedOverrides defaultKey node b = value.asMerged) ∨
    (∃ fields source, node = ⟨.map fields, {}, source⟩ ∧
      seedOverrides defaultKey node b = ⟨.map (fields.map fun field =>
        (field.1, seedOverrides defaultKey field.2 (b.child field.1))), {}, source⟩) ∨
    seedOverrides defaultKey node b = node := by
  cases given : b.stubValues defaultKey with
  | nil => exact .inr (.inr (seedOverrides_eq_self data aligned plain given))
  | cons first rest =>
    have taken := Binding.stubValues_isPlainData defaultKey plain first
      (given ▸ List.mem_cons_self)
    obtain ⟨value, annotations, source⟩ := node
    have own := data
    simp only [Node.isPlainData, Node.isDataWith, Bool.and_eq_true] at own
    obtain rfl := Annotations.eq_of_isPlain own.1
    cases value with
    | list items =>
      rw [Value.isDataWith, itemsAreData_iff] at own
      refine .inl ⟨first, taken, ?_⟩
      rw [seedOverrides_list own.2 plain, given, List.head?_cons]
    | map fields =>
      rw [Value.isDataWith, fieldsAreData_iff] at own
      have seeded := @seedOverrides_map defaultKey b fields source
        (fun field member => (own.2 field member).1) plain
      rw [given, List.head?_cons] at seeded
      obtain ⟨content, a, origin⟩ := first
      cases content with
      | map _ => exact .inr (.inl ⟨fields, source, rfl, seeded⟩)
      | _ => exact .inl ⟨_, taken, seeded⟩
    | _ =>
      refine .inl ⟨first, taken, ?_⟩
      rw [seedOverrides_leaf (by simp) (by simp) data plain, given]
      rfl

end

/-! ### Seeding by stub values -/

/-- Seeding plain data depends on nothing but the stub values at its place. -/
theorem seedOverrides_congr {defaultKey : String} {node : Node} {b b' : Binding}
    (data : node.isPlainData = true) (aligned : b.IsAligned) (aligned' : b'.IsAligned)
    (plain : ∀ stub ∈ b.document.stubs, stub.isPlainData = true)
    (plain' : ∀ stub ∈ b'.document.stubs, stub.isPlainData = true)
    (agree : b.stubValues defaultKey = b'.stubValues defaultKey) :
    seedOverrides defaultKey node b = seedOverrides defaultKey node b' := by
  induction node using Node.treeInduction generalizing b b' with
  | list items annotations source ih =>
    cases given : b.stubValues defaultKey with
    | nil =>
      rw [seedOverrides_eq_self data aligned plain given,
        seedOverrides_eq_self data aligned' plain' (agree.symm.trans given)]
    | cons first rest =>
      simp only [Node.isPlainData, Node.isDataWith, Value.isDataWith, Bool.and_eq_true,
        itemsAreData_iff] at data
      obtain rfl := Annotations.eq_of_isPlain data.1
      rw [seedOverrides_list data.2 plain, seedOverrides_list data.2 plain', ← agree, given]
      rfl
  | map fields annotations source ih =>
    simp only [Node.isPlainData, Node.isDataWith, Value.isDataWith, Bool.and_eq_true,
      fieldsAreData_iff] at data ih
    obtain rfl := Annotations.eq_of_isPlain data.1
    have ordinary := fun field member => (data.2 field member).1
    have same : (fields.map fun field =>
        (field.1, seedOverrides defaultKey field.2 (b.child field.1))) = fields.map fun field =>
          (field.1, seedOverrides defaultKey field.2 (b'.child field.1)) := by
      refine List.map_congr_left fun field member => ?_
      rw [ih field member (data.2 field member).2 (aligned.child field.1) (aligned'.child field.1)
        plain plain' (by rw [Binding.stubValues_child aligned, Binding.stubValues_child aligned',
          agree])]
    rw [seedOverrides_map ordinary plain, seedOverrides_map ordinary plain', same, agree]
  | leaf value annotations source notList notMap =>
    have own := data
    simp only [Node.isPlainData, Node.isDataWith, Bool.and_eq_true] at own
    obtain rfl := Annotations.eq_of_isPlain own.1
    rw [seedOverrides_leaf notList notMap data plain, seedOverrides_leaf notList notMap data plain',
      agree]

theorem seedItems_congr {defaultKey key : String} {index : Nat} {items : List Node} {b b' : Binding}
    (data : ∀ item ∈ items, item.isPlainData = true) (aligned : b.IsAligned)
    (aligned' : b'.IsAligned) (plain : ∀ stub ∈ b.document.stubs, stub.isPlainData = true)
    (plain' : ∀ stub ∈ b'.document.stubs, stub.isPlainData = true)
    (agree : b.stubValues defaultKey = b'.stubValues defaultKey) :
    seedItems defaultKey key index items b = seedItems defaultKey key index items b' := by
  induction items generalizing index with
  | nil => rw [seedItems, seedItems]
  | cons item rest ih =>
    rw [seedItems, seedItems, ih fun item member => data item (List.mem_cons_of_mem _ member),
      seedOverrides_congr (data item List.mem_cons_self) (aligned.entry _ _) (aligned'.entry _ _)
        plain plain' (by rw [Binding.stubValues_entry aligned, Binding.stubValues_entry aligned',
          agree])]

/-- What a step leads to is nested less deep. -/
theorem Node.height_of_stepBy? {node next : Node} {segment key : String}
    (step : node.stepBy? segment key = some next) : next.height < node.height := by
  obtain ⟨value, annotations, source⟩ := node
  cases value with
  | map fields =>
    have lower := height_le_fieldsHeight (Fields.mem_of_find? step)
    rw [height, Value.height]
    exact Nat.lt_succ_of_le lower
  | list items =>
    have member : next ∈ items := by
      simp only [stepBy?] at step
      split at step
      · obtain ⟨position, -, found⟩ := Option.bind_eq_some_iff.mp step
        exact List.mem_of_getElem? found
      · exact List.mem_of_find?_eq_some step
    have lower := height_le_itemsHeight member
    rw [height, Value.height]
    exact Nat.lt_succ_of_le lower
  | _ => cases step

end Cascade
