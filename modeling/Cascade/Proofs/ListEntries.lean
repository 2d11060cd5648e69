import Mathlib.Data.List.Forall2
import Cascade.Proofs.Content
import Cascade.Proofs.InertPasses

/-!
# List entries under stub values

Each pass overrides the entries of a list by the stub values at their segments. An entry that keeps
its identity keeps its segment, so it is seeded for good in the first pass. An entry that a stub
gives another identity has another segment from then on, and may be overridden again; but what made
it stray stays, so it never becomes an entry with the identity of the original.

## Main definitions

* `overlayItems`: the entries of a list under the stub values at their segments.
* `Node.IsKin`: an entry with the identity of another one.
* `Node.Strayed`: what becomes of an entry that loses its identity.
* `EntriesGrown`: what the entries of a list can be after a pass.

## Main statements

* `EntriesGrown.flowEntries`: what a pass makes of the entries that the last pass left.
* `EntriesGrown.content_iff`: the entries are kin of the originals only as the first pass left them.
-/

namespace Cascade

section

variable {engine : Engine} {deeper : Deeper} {b : Binding}

/-! ### Identities -/

theorem Node.identity?_eq_some {entry : Node} {key identity : String}
    (identified : entry.identity? key = some identity) :
    ∃ fields annotations source child, entry = ⟨.map fields, annotations, source⟩ ∧
      Fields.find? fields key = some child ∧ (∀ items, child.value ≠ .list items) ∧
      ∀ fields, child.value ≠ .map fields := by
  obtain ⟨value, annotations, source⟩ := entry
  cases value with
  | map fields =>
    simp only [identity?, field?] at identified
    split at identified
    · next found => exact ⟨fields, annotations, source, _, rfl, found, by simp, by simp⟩
    · next found => exact ⟨fields, annotations, source, _, rfl, found, by simp, by simp⟩
    · cases identified
  | _ => cases identified

/-- Without stub values a template is as it is. -/
theorem overlay_nil (defaultKey : String) (node : Node) : overlay defaultKey node [] = node := by
  induction node using Node.treeInduction with
  | list items annotations source ih => rw [overlay] <;> simp
  | map fields annotations source ih =>
    rw [overlay, List.head?_nil, overlayFields_eq_map]
    refine congrArg (fun fields => Node.mk (.map fields) annotations source) ?_
    refine (List.map_congr_left fun field member => ?_).trans (List.map_id' fields)
    rw [List.filterMap_nil, ih field member]
  | leaf value annotations source notList notMap =>
    rw [overlay, List.head?_nil, Option.getD_none]
    rintro fields _ _ ⟨⟩
    exact notMap fields rfl

/-! ### Entries that lose their identity -/

/-- What becomes of a list entry that a stub gives another identity: what the stub has put in place
of the entry or of its key field stays in all later passes. -/
inductive Node.Strayed (key : String) (entry : Node) : Node → Prop
  | replaced {node : Node} (inert : node.isInert = true) (taken : node.annotations.merged = true)
      (differs : node.identity? key ≠ entry.identity? key ∨
        (∃ fields, entry.value = .map fields) ∧ ∀ fields, node.value ≠ .map fields) :
      Strayed key entry node
  | renamed {fields : Fields Node} {source : String} {field : Node}
      (isMap : ∃ fields, entry.value = .map fields)
      (inert : (Node.mk (.map fields) {} source).isInert = true)
      (found : Fields.find? fields key = some field) (taken : field.annotations.merged = true)
      (differs : (Node.mk (.map fields) {} source).identity? key ≠ entry.identity? key) :
      Strayed key entry ⟨.map fields, {}, source⟩

/-- An entry has the identity of another one, and is a map if that is one. -/
structure Node.IsKin (key : String) (entry other : Node) : Prop where
  identity : other.identity? key = entry.identity? key
  map : (∃ fields, entry.value = .map fields) → ∃ fields, other.value = .map fields

namespace Node.Strayed

variable {key : String} {entry node : Node}

theorem isInert (strayed : Strayed key entry node) : node.isInert = true := by
  cases strayed with
  | replaced inert => exact inert
  | renamed _ inert => exact inert

/-- A strayed entry is none of the entries with the identity of the original. -/
theorem content_ne (strayed : Strayed key entry node) {other : Node} (kin : entry.IsKin key other) :
    node.content ≠ other.content := by
  intro same
  have identity : node.identity? key = entry.identity? key := by
    rw [← kin.identity, ← identity?_content node, ← identity?_content other, same]
  cases strayed with
  | replaced _ _ differs =>
    rcases differs with differs | ⟨isMap, notMap⟩
    · exact differs identity
    · obtain ⟨fields, shape⟩ := kin.map isMap
      obtain ⟨value, annotations, source⟩ := node
      obtain ⟨value', annotations', source'⟩ := other
      obtain rfl : value' = .map fields := shape
      have values : Value.content value = .map _ := congrArg Node.value same
      cases value with
      | map fields => exact notMap fields rfl
      | _ => cases values
  | renamed _ _ _ _ differs => exact differs identity

/-- A strayed entry stays one, wherever it is flowed. -/
theorem flowNode (engine : Engine) (deeper : Deeper) (b : Binding)
    (strayed : Strayed key entry node) {fuel : Nat} (enough : node.height < fuel)
    (plain : ∀ stub ∈ b.document.stubs, stub.isPlainData = true) :
    ∃ after, flowNode engine deeper fuel node b true = pure (some after) ∧
      Strayed key entry after ∧ (node.identity? key = entry.identity? key → after = node) := by
  cases strayed with
  | replaced inert taken differs =>
    have blocks : node.annotations.blocksOverride = true := by
      rw [Annotations.blocksOverride, taken]
      rfl
    exact ⟨node, flowNode_inert inert enough (.inr (.inl blocks)), .replaced inert taken differs,
      fun _ => rfl⟩
  | @renamed fields source field isMap inert found taken differs =>
    obtain ⟨fuel, rfl⟩ : ∃ n, fuel = n + 1 := ⟨fuel - 1, by omega⟩
    rw [height, Value.height] at enough
    obtain ⟨-, inside⟩ := Node.isInert_map.mp inert
    have ordinary := fun field member => (inside field member).1
    rw [Cascade.flowNode]
    cases override : mapOverride? engine.defaultKey ⟨.map fields, {}, source⟩ b with
    | some result =>
      obtain ⟨value, known, notMap, rfl⟩ := isInert_mapOverride? rfl plain override
      refine ⟨value.asMerged, by simp only [flowMap, override, if_true], ?_,
        fun same => absurd same differs⟩
      exact .replaced (isInert_asMerged known) rfl (.inr ⟨isMap, notMap⟩)
    | none =>
      obtain ⟨after, flows, each⟩ : ∃ after : String × Node → Node,
          flowFields (Cascade.flowNode engine deeper fuel) b true
            (fields.map fun field => (field.1, field.2)) =
              pure (fields.map fun field => (field.1, after field)) ∧
          ∀ field ∈ fields, (after field).isInert = true ∧
            (field.2.annotations.merged = true → after field = field.2) := by
        refine exists_flowFields _ _ Prod.snd (P := fun field after => after.isInert = true ∧
          (field.2.annotations.merged = true → after = field.2)) ordinary fun field member => ?_
        have lower := height_le_fieldsHeight member
        have inertField := (inside field member).2
        by_cases merged : field.2.annotations.merged = true
        · have blocks : field.2.annotations.blocksOverride = true := by
            rw [Annotations.blocksOverride, merged]
            rfl
          exact ⟨field.2, flowNode_inert inertField (by omega) (.inr (.inl blocks)), inertField,
            fun _ => rfl⟩
        · have lower : field.2.height < fuel := by omega
          obtain ⟨after, flows, inert⟩ : ∃ flowed, flowNode engine deeper fuel field.2
              (b.child field.1) true = pure (some flowed) ∧ flowed.isInert = true :=
            flowNode_of_inert inertField lower true plain
          exact ⟨after, flows, inert, fun taken => absurd taken merged⟩
      have same : (fields.map fun field => (field.1, field.2)) = fields := List.map_id' fields
      rw [same] at flows
      refine ⟨_, flowMap_of_data ordinary rfl override flows, ?_, fun same => absurd same differs⟩
      have kept : after (key, field) = field := (each _ (Fields.mem_of_find? found)).2 taken
      have stands := Fields.find?_map (fun name child => after (name, child)) fields key
      rw [found, Option.map_some, kept] at stands
      have identity : (Node.mk (.map (fields.map fun field => (field.1, after field))) {}
          source).identity? key = (Node.mk (.map fields) {} source).identity? key := by
        simp only [identity?, field?, stands, found]
      refine .renamed isMap (Node.isInert_map.mpr ⟨rfl, ?_⟩) stands taken (identity ▸ differs)
      simp only [List.mem_map]
      rintro _ ⟨field, member, rfl⟩
      exact ⟨ordinary field member, (each field member).1⟩

/-- An entry to which seeding gives another identity has strayed. -/
theorem of_seedOverrides {defaultKey : String} (data : entry.isPlainData = true)
    (aligned : b.IsAligned) (plain : ∀ stub ∈ b.document.stubs, stub.isPlainData = true)
    (changed : (seedOverrides defaultKey entry b).identity? key ≠ entry.identity? key) :
    Strayed key entry (seedOverrides defaultKey entry b) := by
  have inert : (seedOverrides defaultKey entry b).isInert = true :=
    isInert_seedOverrides data aligned plain
  obtain ⟨value, -, seeded⟩ | ⟨fields, source, rfl, seeded⟩ | seeded :=
    seedOverrides_cases defaultKey data aligned plain
  · rw [seeded] at inert changed ⊢
    exact .replaced inert rfl (.inl changed)
  · obtain ⟨-, inside⟩ := isInert_map.mp (isInert_of_isPlainData data)
    simp only [isPlainData, isDataWith, Value.isDataWith, Bool.and_eq_true, fieldsAreData_iff]
      at data
    rw [seeded] at inert changed ⊢
    have stands := Fields.find?_map (fun name child => seedOverrides defaultKey child (b.child name))
      fields key
    cases found : Fields.find? fields key with
    | none =>
      rw [found, Option.map_none] at stands
      exact absurd (by simp only [identity?, field?, stands, found]) changed
    | some child =>
      rw [found, Option.map_some] at stands
      -- the key field is replaced as a whole, or the identity would be the same
      obtain ⟨value, -, taken⟩ | ⟨inner, origin, rfl, kept⟩ | same :=
        seedOverrides_cases defaultKey (data.2 _ (Fields.mem_of_find? found)).2
          (aligned.child key) plain
      · exact .renamed ⟨fields, rfl⟩ inert stands (by rw [taken]; rfl) changed
      · rw [kept] at stands
        exact absurd (by simp only [identity?, field?, stands, found]) changed
      · rw [same] at stands
        exact absurd (by simp only [identity?, field?, stands, found]) changed
  · exact absurd (by rw [seeded]) changed

end Node.Strayed

/-! ### Entries from the first pass on -/

section

variable (defaultKey key : String)

/-- The entries of a list, from an index on, under the stub values at their segments. -/
def overlayItems (values : List Node) : Nat → List Node → List Node
  | _, [] => []
  | index, entry :: rest =>
    overlay defaultKey entry (values.filterMap (·.stepBy? (entry.entrySegment index key) key)) ::
      overlayItems values (index + 1) rest

variable (b : Binding)

/-- What an entry can be after a pass: seeded with the stub values at its segment, or astray. -/
def Node.Grown (entry node : Node) (place : Binding) : Prop :=
  (seedOverrides defaultKey entry place).identity? key = entry.identity? key ∧
      node = seedOverrides defaultKey entry place ∨
    (seedOverrides defaultKey entry place).identity? key ≠ entry.identity? key ∧
      entry.Strayed key node

/-- What the entries of a list, from an index on, can be after a pass. -/
inductive EntriesGrown : Nat → List Node → List Node → Prop
  | nil (index : Nat) : EntriesGrown index [] []
  | cons {index : Nat} {entry node : Node} {rest others : List Node}
      (first : entry.Grown defaultKey key node (b.entry (entry.entrySegment index key) key))
      (later : EntriesGrown (index + 1) rest others) :
      EntriesGrown index (entry :: rest) (node :: others)

end

section

variable {defaultKey key : String} {index : Nat} {items nodes meant : List Node}
  (data : ∀ item ∈ items, item.isPlainData = true) (aligned : b.IsAligned)
  (plain : ∀ stub ∈ b.document.stubs, stub.isPlainData = true)

include data aligned plain

/-- Entries are seeded in the first pass. -/
theorem EntriesGrown.of_seedItems :
    EntriesGrown defaultKey key b index items (seedItems defaultKey key index items b) := by
  induction items generalizing index with
  | nil => exact .nil index
  | cons item rest ih =>
    rw [seedItems]
    refine .cons ?_ (ih fun item member => data item (List.mem_cons_of_mem _ member))
    by_cases kept : (seedOverrides defaultKey item (b.entry (item.entrySegment index key) key)).identity?
        key = item.identity? key
    · exact .inl ⟨kept, rfl⟩
    · exact .inr ⟨kept, .of_seedOverrides (data item List.mem_cons_self) (aligned.entry _ _) plain
        kept⟩

theorem EntriesGrown.isInert (grown : EntriesGrown defaultKey key b index items nodes) :
    ∀ node ∈ nodes, node.isInert = true := by
  induction grown with
  | nil => simp
  | cons first later ih =>
    refine List.forall_mem_cons.mpr
      ⟨?_, ih fun item member => data item (List.mem_cons_of_mem _ member)⟩
    rcases first with ⟨-, rfl⟩ | ⟨-, strayed⟩
    · exact isInert_seedOverrides (data _ List.mem_cons_self) (aligned.entry _ _) plain
    · exact strayed.isInert

/-- The entries are what is meant if the stub values at their segments make that of them. -/
theorem EntriesGrown.content_iff (grown : EntriesGrown defaultKey key b index items nodes)
    (kin : List.Forall₂ (Node.IsKin key) items meant) :
    nodes.map Node.content = meant.map Node.content ↔
      (overlayItems defaultKey key (b.stubValues defaultKey) index items).map Node.content =
        meant.map Node.content := by
  induction grown generalizing meant with
  | nil => rw [overlayItems]
  | @cons index entry node rest others first later ih =>
    obtain ⟨other, meant, own, others, rfl⟩ := List.forall₂_cons_left_iff.mp kin
    have seeded : (seedOverrides defaultKey entry
          (b.entry (entry.entrySegment index key) key)).content =
        (overlay defaultKey entry ((b.stubValues defaultKey).filterMap
          (·.stepBy? (entry.entrySegment index key) key))).content := by
      rw [← Node.content_bare, bare_seedOverrides (data _ List.mem_cons_self) (aligned.entry _ _)
        plain, Binding.stubValues_entry aligned]
    have here : node.content = other.content ↔
        (seedOverrides defaultKey entry
          (b.entry (entry.entrySegment index key) key)).content = other.content := by
      rcases first with ⟨-, rfl⟩ | ⟨changed, strayed⟩
      · rfl
      · refine iff_of_false (strayed.content_ne own) fun same => changed ?_
        rw [← own.identity, ← Node.identity?_content, same, Node.identity?_content]
    rw [overlayItems, List.map_cons, List.map_cons, List.map_cons, List.cons.injEq, List.cons.injEq,
      ← seeded, here, ih (fun item member => data item (List.mem_cons_of_mem _ member)) others]

end

/-- A further pass takes up the entries where the last one left them, and leaves them if they are as
meant. -/
theorem EntriesGrown.flowEntries (engine : Engine) (deeper : Deeper) (fuel : Nat) {key : String}
    {index : Nat} {items nodes meant : List Node} {b' : Binding} (data : ∀ item ∈ items, item.isPlainData = true)
    (aligned : b.IsAligned) (aligned' : b'.IsAligned)
    (plain : ∀ stub ∈ b.document.stubs, stub.isPlainData = true)
    (plain' : ∀ stub ∈ b'.document.stubs, stub.isPlainData = true)
    (agree : b'.stubValues engine.defaultKey = b.stubValues engine.defaultKey)
    (grown : EntriesGrown engine.defaultKey key b index items nodes)
    (enough : ∀ node ∈ nodes, node.height < fuel) (kin : List.Forall₂ (Node.IsKin key) items meant) :
    ∃ after, Cascade.flowEntries (flowNode engine deeper fuel) key b' true index nodes = pure after ∧
      EntriesGrown engine.defaultKey key b index items after ∧
      (nodes.map Node.content = meant.map Node.content → after = nodes) := by
  have inert := grown.isInert data aligned plain
  induction grown generalizing meant with
  | nil => exact ⟨[], rfl, .nil _, fun _ => rfl⟩
  | @cons index entry node rest others first later ih =>
    obtain ⟨other, meant, own, others, rfl⟩ := List.forall₂_cons_left_iff.mp kin
    obtain ⟨after, flows, grown, still⟩ := ih
      (fun item member => data item (List.mem_cons_of_mem _ member))
      (fun node member => enough node (List.mem_cons_of_mem _ member)) others
      fun node member => inert node (List.mem_cons_of_mem _ member)
    have noDirective := Node.listDirective?_of_data (inert node List.mem_cons_self)
    have low := enough node List.mem_cons_self
    rcases first with ⟨kept, rfl⟩ | ⟨changed, strayed⟩
    · have segment : (seedOverrides engine.defaultKey entry
          (b.entry (entry.entrySegment index key) key)).entrySegment index key =
          entry.entrySegment index key := by
        rw [Node.entrySegment, kept, Node.entrySegment]
      have rests := @flowNode_seedOverrides (b.entry (entry.entrySegment index key) key) engine
        deeper entry (data entry List.mem_cons_self) (b'.entry (entry.entrySegment index key) key)
        fuel low
        (aligned.entry _ _) (aligned'.entry _ _) plain plain'
        (by rw [Binding.stubValues_entry aligned', Binding.stubValues_entry aligned, agree])
      refine ⟨_, flowEntries_cons_of_eq noDirective (by rw [segment]; exact rests) flows,
        .cons (.inl ⟨kept, rfl⟩) grown, fun same => ?_⟩
      rw [List.map_cons, List.map_cons, List.cons.injEq] at same
      rw [still same.2]
    · obtain ⟨next, moves, astray, rests⟩ := 
        strayed.flowNode engine deeper (b'.entry (node.entrySegment index key) key) low plain'
      refine ⟨next :: after, flowEntries_cons_of_eq noDirective moves flows,
        .cons (.inr ⟨changed, astray⟩) grown, fun same => ?_⟩
      rw [List.map_cons, List.map_cons, List.cons.injEq] at same
      exact absurd same.1 (strayed.content_ne own)

end

end Cascade
