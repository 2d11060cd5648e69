import Mathlib.Data.List.Forall2
import Cascade.Proofs.ListEntries
import Cascade.Proofs.NestedCascade

/-!
# Merging stub lists into lists

A list whose entries are data but for one `<<: (( merge ))` takes up the entries of the list that a
stub has for it. What it is meant to become is plain to say: its own entries, each overlaid by the
stub entry of the same identity, and at the place of the directive the stub entries of all other
identities and those without one. What happens is that the first pass splices the lists, and that
every entry of the spliced list is then overridden as the entries of any list are: by the stub entry
of its segment, which is its identity or else its index. An index counts the entries of the spliced
list, while the stub counts its own, so an entry without an identity can meet any entry of the stub,
its own copy aside. So can an entry whose identity reads as an index.

## Main definitions

* `weave`: data with stub lists merged into its lists, as it is meant.
* `ListMerge`: a list with a merge among its entries, and what its stub has for it.
* `ListMerge.IsAddressed`: every entry of the spliced list meets the stub entry that it is meant to
  meet.

## Main statements

* `cascade_mergedLists`: a cascade yields what is meant exactly if that holds of all its merges.
* `cascade_keyedLists`: it does where all entries have an identity that is no index.
-/

namespace Cascade

/-! ### Merged lists as they are meant -/

/-- The position and the form of the merge that is the first directive of a list. -/
def mergePoint? (items : List Node) : Option (Nat × MergeExpr) :=
  match firstDirective? items with
  | some (position, .merge form) => some (position, form)
  | _ => none

section

variable (defaultKey : String)

/-- The entry with the identity of a given one. -/
def Node.counterpart? (entry : Node) (key : String) (entries : List Node) : Option Node :=
  (entry.identity? key).bind fun identity =>
    entries.find? fun other => other.identity? key == some identity

/-- A list entry, overlaid by the stub entry of the same identity. -/
def Node.overlaidBy (entry : Node) (key : String) (added : List Node) : Node :=
  overlay defaultKey entry (entry.counterpart? key added).toList

/-- The entries of a list with a directive at a position, merged with those of a stub list: its own
entries before the directive, the stub entries of new identities and without one, and its other
entries. -/
def mergedItems (key : String) (position : Nat) (own added : List Node) : List Node :=
  (own.take position).map (fun entry => entry.overlaidBy defaultKey key added) ++
    newItems key own added ++
    (own.drop position).map (fun entry => entry.overlaidBy defaultKey key added)

mutual

/-- A template under the values that stubs have at its place, in which stub lists are merged into
lists that ask for it. -/
def weave : Node → List Node → Node
  | ⟨.map fields, annotations, source⟩, values =>
    match values.head? with
    | none | some ⟨.map _, _, _⟩ => ⟨.map (weaveFields fields values), annotations, source⟩
    | some value => value
  | ⟨.list items, annotations, source⟩, values =>
    match mergePoint? items, values.head? with
    | some (position, form), some ⟨.list added, _, _⟩ =>
      ⟨.list (mergedItems defaultKey (form.key.getD defaultKey) position (items.eraseIdx position)
        added), annotations, source⟩
    | _, _ => overlay defaultKey ⟨.list items, annotations, source⟩ values
  | node, values => overlay defaultKey node values

/-- The fields of a map under the values that stubs have at its place. -/
def weaveFields : List (String × Node) → List Node → List (String × Node)
  | [], _ => []
  | (key, child) :: rest, values =>
    (key, weave child (values.filterMap (·.step? key defaultKey))) :: weaveFields rest values

end

end

/-- A list with one merge among entries of data, and the one list that stubs have at its place. -/
structure ListMerge (items values : List Node) where
  position : Nat
  form : MergeExpr
  directive : mergePoint? items = some (position, form)
  inPlace : form.path = none
  additive : form.replace = false
  data : ∀ entry ∈ items.eraseIdx position, entry.isPlainData = true
  added : List Node
  origin : String
  given : values = [⟨.list added, {}, origin⟩]

namespace ListMerge

variable {items values : List Node} (merge : ListMerge items values)

/-- The entries without the directive. -/
def own : List Node := items.eraseIdx merge.position

theorem mem_values : Node.mk (.list merge.added) {} merge.origin ∈ values :=
  Eq.mpr (congrArg (Node.mk (.list merge.added) {} merge.origin ∈ ·) merge.given)
    (List.mem_singleton_self _)

/-- The field that identifies the entries. -/
def key (defaultKey : String) : String := merge.form.key.getD defaultKey

/-- The entries with the stub entries put in. -/
def spliced (defaultKey : String) : List Node :=
  insertItems merge.position (newItems (merge.key defaultKey) merge.own merge.added) merge.own

/-- The entries as they are meant. -/
def meant (defaultKey : String) : List Node :=
  mergedItems defaultKey (merge.key defaultKey) merge.position merge.own merge.added

/-- Under the stub values at its segment, every entry of the spliced list becomes what is meant. -/
def IsAddressed (defaultKey : String) : Prop :=
  (overlayItems defaultKey (merge.key defaultKey) values 0 (merge.spliced defaultKey)).map
      Node.content = (merge.meant defaultKey).map Node.content

end ListMerge

/-- No stub overrides a map as a whole: the first stub value, if there is one, is a map. -/
def MapStays (values : List Node) : Prop :=
  ∀ value ∈ values.head?, ∃ fields, value.value = .map fields

/-- A template is data but for lists with merges, which have a property. Nothing is asked of what a
stub overrides as a whole. -/
inductive Node.Weaves (defaultKey : String)
    (P : (items values : List Node) → ListMerge items values → Prop) : Node → List Node → Prop
  | data {node : Node} {values : List Node} (data : node.isPlainData = true)
      (notMap : ∀ fields, node.value ≠ .map fields) : Weaves defaultKey P node values
  | merges {items values : List Node} {source : String} (merge : ListMerge items values)
      (holds : P items values merge) : Weaves defaultKey P ⟨.list items, {}, source⟩ values
  | overridden {fields : Fields Node} {values : List Node} {source : String} {value : Node}
      (first : values.head? = some value) (notMap : ∀ inner, value.value ≠ .map inner) :
      Weaves defaultKey P ⟨.map fields, {}, source⟩ values
  | stays {fields : Fields Node} {values : List Node} {source : String} (stays : MapStays values)
      (ordinary : ∀ field ∈ fields, controlSuffix? field.1 = none)
      (inside : ∀ field ∈ fields,
        Weaves defaultKey P field.2 (values.filterMap (·.step? field.1 defaultKey))) :
      Weaves defaultKey P ⟨.map fields, {}, source⟩ values

/-- Data but for lists with merges. -/
def Node.IsWoven (defaultKey : String) (template : Node) (stubs : List Node) : Prop :=
  template.Weaves defaultKey (fun _ _ _ => True) stubs

/-- Data but for lists with merges, all of whose entries meet the stub entries that they are meant
to meet. -/
def Node.IsAddressed (defaultKey : String) (template : Node) (stubs : List Node) : Prop :=
  template.Weaves defaultKey (fun _ _ merge => merge.IsAddressed defaultKey) stubs

/-! ### Entries as they are meant -/

/-- An entry that is overlaid by the stub entry of its identity keeps it. -/
theorem Node.isKin_overlaidBy (defaultKey : String) (entry : Node) (key : String)
    (added : List Node) : entry.IsKin key (entry.overlaidBy defaultKey key added) := by
  rw [overlaidBy]
  cases known : entry.counterpart? key added with
  | none =>
    rw [Option.toList_none, overlay_nil]
    exact ⟨rfl, id⟩
  | some other =>
    obtain ⟨identity, own, found⟩ := Option.bind_eq_some_iff.mp known
    have theirs : other.identity? key = some identity := by simpa using List.find?_some found
    obtain ⟨fields, annotations, source, child, rfl, here, notList, notMap⟩ :=
      identity?_eq_some own
    obtain ⟨fields', annotations', source', child', rfl, there, -, -⟩ := identity?_eq_some theirs
    rw [Option.toList_some, overlay, List.head?_cons, overlayFields_eq_map]
    refine ⟨?_, fun _ => ⟨_, rfl⟩⟩
    have stands := Fields.find?_map (fun name child => overlay defaultKey child
      ([Node.mk (.map fields') annotations' source'].filterMap (·.step? name defaultKey))) fields key
    have step : (Node.mk (.map fields') annotations' source').step? key defaultKey = some child' :=
      there
    have taken : overlay defaultKey child [child'] = child' := by
      rw [overlay, List.head?_cons, Option.getD_some]
      rintro fields _ _ rfl
      exact notMap fields rfl
    rw [here, Option.map_some, List.filterMap_cons, step, List.filterMap_nil, taken] at stands
    rw [own, ← theirs]
    simp only [identity?, field?, stands, there]

/-- Every entry of a spliced list has the identity of the one that it is meant to become. -/
theorem isKin_mergedItems (defaultKey key : String) (position : Nat) (own added : List Node) :
    List.Forall₂ (Node.IsKin key) (insertItems position (newItems key own added) own)
      (mergedItems defaultKey key position own added) := by
  have overlaid (items : List Node) : List.Forall₂ (Node.IsKin key) items
      (items.map fun entry => entry.overlaidBy defaultKey key added) :=
    List.forall₂_map_right_iff.mpr
      (List.forall₂_same.mpr fun entry _ => entry.isKin_overlaidBy defaultKey key added)
  exact List.rel_append (List.rel_append (overlaid _)
    (List.forall₂_same.mpr fun _ _ => ⟨rfl, id⟩)) (overlaid _)

/-! ### The first pass over a list -/

section

variable {engine : Engine} {deeper : Deeper} {b : Binding}

theorem sharedLength_self (path : List String) : Binding.sharedLength path path = path.length := by
  induction path with
  | nil => rfl
  | cons segment rest ih => rw [Binding.sharedLength, if_pos rfl, ih, List.length_cons]

/-- The first stub value of a place is what a merge at it finds. -/
theorem stubValue?_stubPath (aligned : b.IsAligned) (defaultKey : String) :
    b.stubValue? b.stubPath defaultKey = (b.stubValues defaultKey).head? := by
  rw [Binding.stubValue?, sharedLength_self, ← aligned, List.take_length, Binding.stubValues,
    List.head?_filterMap]

theorem nodeValue_of_plainData {node : Node} (plain : node.isPlainData = true) (name : String) :
    nodeValue name node false = .ok (.ofValue node.value) := by
  have clear : node.isClearData = true := by
    refine Node.isDataWith_mono (fun a plain => ?_) plain
    obtain rfl := Annotations.eq_of_isPlain plain
    rfl
  exact nodeValue_of_isResolved (Node.isResolved_of_clearData clear)

variable {items values : List Node} (merge : ListMerge items values)

/-- The first directive of a merging list is its merge. -/
theorem ListMerge.firstDirective? :
    Cascade.firstDirective? items = some (merge.position, .merge merge.form) := by
  have found := merge.directive
  unfold mergePoint? at found
  split at found
  · next position form first =>
    cases found
    exact first
  · cases found

theorem ListMerge.isPlainData_added {defaultKey : String}
    (plain : ∀ stub ∈ b.document.stubs, stub.isPlainData = true)
    (agree : b.stubValues defaultKey = values) :
    ∀ entry ∈ merge.added, entry.isPlainData = true := by
  have known : (Node.mk (.list merge.added) {} merge.origin).isPlainData = true := by
    refine Binding.stubValues_isPlainData defaultKey plain _ ?_
    rw [agree]
    exact merge.mem_values
  simp only [Node.isPlainData, Node.isDataWith, Value.isDataWith, Bool.and_eq_true,
    itemsAreData_iff] at known
  exact known.2

theorem ListMerge.isPlainData_spliced {defaultKey : String}
    (plain : ∀ stub ∈ b.document.stubs, stub.isPlainData = true)
    (agree : b.stubValues defaultKey = values) :
    ∀ entry ∈ merge.spliced defaultKey, entry.isPlainData = true := by
  intro entry member
  rcases mem_insertItems member with own | added
  · exact merge.data entry own
  · exact merge.isPlainData_added plain agree entry (List.mem_of_mem_filter added)

variable (aligned : b.IsAligned) (plain : ∀ stub ∈ b.document.stubs, stub.isPlainData = true)
  (agree : b.stubValues engine.defaultKey = values)

include aligned plain agree

/-- A merge of a list yields the list of the stub. -/
theorem ListMerge.outcomeOf :
    Cascade.outcomeOf engine deeper (.merge merge.form) b.directive =
      pure (.ok ⟨.list merge.added, { merged := true, keyName := merge.form.key }⟩) := by
  have known : (Node.mk (.list merge.added) {} merge.origin).isPlainData = true := by
    rw [Node.isPlainData, Node.isDataWith, Value.isDataWith, Bool.and_eq_true, itemsAreData_iff]
    exact ⟨rfl, merge.isPlainData_added plain agree⟩
  have found : b.directive.stubValue? b.directive.stubPath engine.defaultKey =
      some ⟨.list merge.added, {}, merge.origin⟩ := by
    change b.stubValue? b.stubPath engine.defaultKey = _
    rw [stubValue?_stubPath aligned, agree.trans merge.given, List.head?_cons]
  rw [Cascade.outcomeOf, evaluate, MergeExpr.run]
  simp only [merge.inPlace, Option.getD_none, found, nodeValue_of_plainData known, merge.additive]
  rfl

/-- The first pass over a merging list splices the stub entries into it and seeds all entries. -/
theorem ListMerge.flowNode {source : String} {fuel : Nat}
    (enough : ∀ entry ∈ merge.spliced engine.defaultKey, entry.height < fuel) :
    Cascade.flowNode engine deeper (fuel + 1) ⟨.list items, {}, source⟩ b true =
      pure (some ⟨.list (seedItems engine.defaultKey (merge.key engine.defaultKey) 0
        (merge.spliced engine.defaultKey) b), { expanded := true, keyName := merge.form.key },
        source⟩) := by
  have data := merge.isPlainData_spliced plain agree
  have flows : flowEntries (Cascade.flowNode engine deeper fuel) (merge.key engine.defaultKey) b true
      0 (merge.spliced engine.defaultKey) = pure (seedItems engine.defaultKey
        (merge.key engine.defaultKey) 0 (merge.spliced engine.defaultKey) b) :=
    flowEntries_of_plainData data fun entry member segment =>
      flowNode_of_plainData (data entry member) (enough entry member) (aligned.entry segment _) plain
  have marks : ({ merged := true, keyName := merge.form.key } : Info).annotateContainer
      ({} : Annotations).clearIssue = { keyName := merge.form.key } := by
    cases merge.form.key <;> rfl
  have entries : spliceListDirective engine ⟨.list items, {}, source⟩ items merge.position
      ⟨.list merge.added, { merged := true, keyName := merge.form.key }⟩ =
      .entries (merge.spliced engine.defaultKey)
        { expanded := true, keyName := merge.form.key } := by
    rw [spliceListDirective, marks]
    rfl
  rw [Cascade.flowNode]
  simp only [flowList, flowListDirective, merge.firstDirective?,
    merge.outcomeOf aligned plain agree, pure_bind, entries]
  change flowEntries (Cascade.flowNode engine deeper fuel) (merge.key engine.defaultKey) b true 0
    (merge.spliced engine.defaultKey) >>= _ = _
  rw [flows, pure_bind]

end

/-! ### Templates under stub values -/

section

variable {defaultKey : String} {items values : List Node} {fields : Fields Node}
  {annotations : Annotations} {source : String} {b : Binding}

theorem weaveFields_eq_map (defaultKey : String) (fields : Fields Node) (values : List Node) :
    weaveFields defaultKey fields values = fields.map fun field =>
      (field.1, weave defaultKey field.2 (values.filterMap (·.step? field.1 defaultKey))) := by
  induction fields with
  | nil => rw [weaveFields, List.map_nil]
  | cons field rest ih => rw [weaveFields, List.map_cons, ih]

theorem weave_of_stays (stays : MapStays values) :
    weave defaultKey ⟨.map fields, annotations, source⟩ values =
      ⟨.map (weaveFields defaultKey fields values), annotations, source⟩ := by
  rw [weave]
  rcases first : values.head? with _ | value
  · rfl
  · obtain ⟨inner, shape⟩ := stays value first
    obtain ⟨content, a, origin⟩ := value
    obtain rfl : content = .map inner := shape
    rfl

theorem mapOverride?_of_stays {node : Node} (own : node.annotations = {})
    (plain : ∀ stub ∈ b.document.stubs, stub.isPlainData = true)
    (stays : MapStays (b.stubValues defaultKey)) : mapOverride? defaultKey node b = none := by
  rw [mapOverride?_of_plainData own plain]
  rcases first : (b.stubValues defaultKey).head? with _ | value
  · rfl
  · obtain ⟨inner, shape⟩ := stays value first
    obtain ⟨content, a, origin⟩ := value
    obtain rfl : content = .map inner := shape
    rfl

theorem seedOverrides_of_stays (ordinary : ∀ field ∈ fields, controlSuffix? field.1 = none)
    (plain : ∀ stub ∈ b.document.stubs, stub.isPlainData = true)
    (stays : MapStays (b.stubValues defaultKey)) :
    seedOverrides defaultKey ⟨.map fields, {}, source⟩ b =
      ⟨.map (fields.map fun field =>
        (field.1, seedOverrides defaultKey field.2 (b.child field.1))), {}, source⟩ := by
  rw [seedOverrides_map ordinary plain]
  rcases first : (b.stubValues defaultKey).head? with _ | value
  · rfl
  · obtain ⟨inner, shape⟩ := stays value first
    obtain ⟨content, a, origin⟩ := value
    obtain rfl : content = .map inner := shape
    rfl

theorem weave_of_overridden {value : Node} (first : values.head? = some value)
    (notMap : ∀ inner, value.value ≠ .map inner) :
    weave defaultKey ⟨.map fields, annotations, source⟩ values = value := by
  rw [weave, first]
  obtain ⟨content, a, origin⟩ := value
  cases content with
  | map inner => exact absurd rfl (notMap inner)
  | _ => rfl

theorem seedOverrides_of_overridden {value : Node}
    (first : (b.stubValues defaultKey).head? = some value)
    (notMap : ∀ inner, value.value ≠ .map inner)
    (plain : ∀ stub ∈ b.document.stubs, stub.isPlainData = true) :
    seedOverrides defaultKey ⟨.map fields, {}, source⟩ b = value.asMerged := by
  have own := @mapOverride?_of_plainData defaultKey b ⟨.map fields, {}, source⟩ rfl plain
  rw [first] at own
  rw [seedOverrides]
  obtain ⟨content, a, origin⟩ := value
  cases content with
  | map inner => exact absurd rfl (notMap inner)
  | _ => simp [Annotations.blocksOverride, own]

/-- Lists of data ask for no merge. -/
theorem mergePoint?_of_data (data : ∀ item ∈ items, item.isPlainData = true) :
    mergePoint? items = none := by
  rw [mergePoint?, firstDirective?_of_data data]

/-- The directive of a list and the stub value determine the merge. -/
instance : Subsingleton (ListMerge items values) where
  allEq merge merge' := by
    obtain ⟨position, form, directive, _, _, _, added, origin, given⟩ := merge
    obtain ⟨position', form', directive', _, _, _, added', origin', given'⟩ := merge'
    obtain ⟨rfl, rfl⟩ := Prod.mk.inj (Option.some.inj (directive.symm.trans directive'))
    have same := given.symm.trans given'
    simp only [List.cons.injEq, Node.mk.injEq, Value.list.injEq, true_and, and_true] at same
    obtain ⟨rfl, rfl⟩ := same
    rfl

theorem weave_of_merge (merge : ListMerge items values) :
    weave defaultKey ⟨.list items, annotations, source⟩ values =
      ⟨.list (merge.meant defaultKey), annotations, source⟩ := by
  have first : values.head? = some ⟨.list merge.added, {}, merge.origin⟩ :=
    congrArg List.head? merge.given
  rw [weave, merge.directive, first]
  rfl

theorem seedOverrides_of_merge (merge : ListMerge items values) :
    seedOverrides defaultKey ⟨.list items, {}, source⟩ b = ⟨.list items, {}, source⟩ := by
  have directive : (items.any fun entry => entry.listDirective?.isSome) = true := by
    have found := merge.firstDirective?
    rw [firstDirective?] at found
    obtain ⟨⟨entry, position⟩, member, read⟩ := List.exists_of_findSome?_eq_some found
    obtain ⟨e, known, -⟩ := Option.map_eq_some_iff.mp read
    rw [List.any_eq_true]
    exact ⟨entry, (List.mem_zipIdx' member).2 ▸ List.getElem_mem _, by rw [known]; rfl⟩
  rw [seedOverrides, directive]
  simp [Annotations.blocksOverride]

theorem weave_of_plainData {node : Node} (data : node.isPlainData = true)
    (notMap : ∀ fields, node.value ≠ .map fields) :
    weave defaultKey node values = overlay defaultKey node values := by
  obtain ⟨value, annotations, source⟩ := node
  cases value with
  | map fields => exact absurd rfl (notMap fields)
  | list items =>
    simp only [Node.isPlainData, Node.isDataWith, Value.isDataWith, Bool.and_eq_true,
      itemsAreData_iff] at data
    rw [weave, mergePoint?_of_data data.2]
  | _ => rw [weave] <;> simp

end

section

variable {defaultKey : String} {items values : List Node} {fields : Fields Node} {source : String}
  {P : (items values : List Node) → ListMerge items values → Prop}

theorem Node.weaves_list_iff (merge : ListMerge items values) :
    (Node.mk (.list items) {} source).Weaves defaultKey P values ↔ P items values merge := by
  refine ⟨fun weaves => ?_, fun holds => .merges merge holds⟩
  cases weaves with
  | data data _ =>
    simp only [isPlainData, isDataWith, Value.isDataWith, Bool.and_eq_true, itemsAreData_iff] at data
    have found := merge.directive
    rw [mergePoint?_of_data data.2] at found
    cases found
  | merges merge' holds => rwa [Subsingleton.elim merge merge']

theorem Node.weaves_map_iff (stays : MapStays values)
    (ordinary : ∀ field ∈ fields, controlSuffix? field.1 = none) :
    (Node.mk (.map fields) {} source).Weaves defaultKey P values ↔ ∀ field ∈ fields,
      field.2.Weaves defaultKey P (values.filterMap (·.step? field.1 defaultKey)) := by
  refine ⟨fun weaves => ?_, fun inside => .stays stays ordinary inside⟩
  cases weaves with
  | data _ notMap => exact absurd rfl (notMap fields)
  | overridden first notMap =>
    obtain ⟨inner, shape⟩ := stays _ first
    exact absurd shape (notMap inner)
  | stays _ _ inside => exact inside

end

/-! ### Documents from pass to pass -/

/-- What a template can be after a pass: data is seeded for good, and stub lists are merged. -/
inductive Node.HasGrown (defaultKey : String) : Node → Binding → Node → Prop
  | data {node : Node} {b : Binding} (data : node.isPlainData = true)
      (notMap : ∀ fields, node.value ≠ .map fields) :
      HasGrown defaultKey node b (seedOverrides defaultKey node b)
  | merges {items flowed values : List Node} {b : Binding} {source : String}
      (agree : b.stubValues defaultKey = values) (merge : ListMerge items values)
      (entries : EntriesGrown defaultKey (merge.key defaultKey) b 0 (merge.spliced defaultKey)
        flowed) :
      HasGrown defaultKey ⟨.list items, {}, source⟩ b
        ⟨.list flowed, { expanded := true, keyName := merge.form.key }, source⟩
  | overridden {fields : Fields Node} {b : Binding} {source : String} {value : Node}
      (first : (b.stubValues defaultKey).head? = some value)
      (notMap : ∀ inner, value.value ≠ .map inner) :
      HasGrown defaultKey ⟨.map fields, {}, source⟩ b value.asMerged
  | stays {fields : Fields Node} {b : Binding} {source : String} {grow : String × Node → Node}
      (stays : MapStays (b.stubValues defaultKey))
      (ordinary : ∀ field ∈ fields, controlSuffix? field.1 = none)
      (inside : ∀ field ∈ fields, HasGrown defaultKey field.2 (b.child field.1) (grow field)) :
      HasGrown defaultKey ⟨.map fields, {}, source⟩ b
        ⟨.map (fields.map fun field => (field.1, grow field)), {}, source⟩

namespace Node.HasGrown

variable {engine : Engine} {deeper : Deeper} {b b' : Binding} {node tree : Node} {values : List Node}

/-- What has grown from a template is the document as it stands. -/
theorem isShown {defaultKey : String} (grown : node.HasGrown defaultKey b tree)
    (aligned : b.IsAligned) (plain : ∀ stub ∈ b.document.stubs, stub.isPlainData = true) :
    tree.isShown = true := by
  induction grown with
  | data data notMap =>
    exact isShown_of_isInert (isInert_seedOverrides data aligned plain)
  | merges agree merge entries =>
    have inert := entries.isInert (merge.isPlainData_spliced plain agree) aligned plain
    simp only [Node.isShown, isDataWith, Value.isDataWith, Bool.and_eq_true, itemsAreData_iff]
    exact ⟨rfl, fun item member => isShown_of_isInert (inert item member)⟩
  | overridden first notMap =>
    refine isShown_of_isInert (isInert_asMerged ?_)
    exact Binding.stubValues_isPlainData defaultKey plain _ (List.mem_of_head? first)
  | stays stays ordinary inside ih =>
    simp only [Node.isShown, isDataWith, Value.isDataWith, Bool.and_eq_true, fieldsAreData_iff,
      List.mem_map]
    refine ⟨rfl, ?_⟩
    rintro _ ⟨field, member, rfl⟩
    exact ⟨ordinary field member, ih field member (aligned.child _) plain⟩

/-- A document has the content that is meant exactly if the entries of its lists meet the stub
entries that they are meant to meet. -/
theorem content_iff {defaultKey : String} (grown : node.HasGrown defaultKey b tree)
    (aligned : b.IsAligned) (plain : ∀ stub ∈ b.document.stubs, stub.isPlainData = true) :
    tree.content = (weave defaultKey node (b.stubValues defaultKey)).content ↔
      node.IsAddressed defaultKey (b.stubValues defaultKey) := by
  induction grown with
  | data data notMap =>
    refine iff_of_true ?_ (.data data notMap)
    rw [weave_of_plainData data notMap, ← content_bare, bare_seedOverrides data aligned plain]
  | @merges items flowed values b source agree merge entries =>
    rw [IsAddressed, agree, weaves_list_iff merge, weave_of_merge merge, content_list, content_list]
    simp only [Node.plain, Node.mk.injEq, Value.list.injEq, and_true]
    have kin : List.Forall₂ (IsKin (merge.key defaultKey)) (merge.spliced defaultKey)
        (merge.meant defaultKey) := isKin_mergedItems ..
    rw [entries.content_iff (merge.isPlainData_spliced plain agree) aligned plain kin, agree]
    rfl
  | overridden first notMap =>
    refine iff_of_true ?_ (.overridden first notMap)
    rw [weave_of_overridden first notMap, ← content_bare, bare_asMerged]
    exact Binding.stubValues_isPlainData defaultKey plain _ (List.mem_of_head? first)
  | @stays fields b source grow stays ordinary inside ih =>
    rw [IsAddressed, weaves_map_iff stays ordinary, weave_of_stays stays, weaveFields_eq_map,
      content_map, content_map, List.map_map, List.map_map]
    simp only [Node.plain, Node.mk.injEq, Value.map.injEq, and_true]
    rw [List.map_inj_left]
    refine forall₂_congr fun field member => ?_
    have below := ih field member (aligned.child field.1) plain
    rw [Binding.stubValues_child aligned] at below
    simp only [Function.comp_apply, Prod.mk.injEq, true_and]
    exact below

/-- The next pass goes on with a document, and leaves it if it has the content that is meant. -/
theorem next (deeper : Deeper) (b' : Binding) (fuel : Nat)
    (grown : node.HasGrown engine.defaultKey b tree) (aligned : b.IsAligned)
    (aligned' : b'.IsAligned) (plain : ∀ stub ∈ b.document.stubs, stub.isPlainData = true)
    (plain' : ∀ stub ∈ b'.document.stubs, stub.isPlainData = true)
    (agree : b'.stubValues engine.defaultKey = b.stubValues engine.defaultKey)
    (enough : tree.height < fuel) :
    ∃ after, flowNode engine deeper fuel tree b' true = pure (some after) ∧
      node.HasGrown engine.defaultKey b after ∧
      (tree.content = (weave engine.defaultKey node (b.stubValues engine.defaultKey)).content →
        after = tree) := by
  induction grown generalizing b' fuel with
  | data data notMap =>
    exact ⟨_, flowNode_seedOverrides data enough aligned aligned' plain plain' agree,
      .data data notMap, fun _ => rfl⟩
  | @merges items flowed values b source known merge entries =>
    obtain ⟨fuel, rfl⟩ : ∃ n, fuel = n + 1 := ⟨fuel - 1, by omega⟩
    rw [height, Value.height] at enough
    have data := merge.isPlainData_spliced plain known
    have inert := entries.isInert data aligned plain
    have kin : List.Forall₂ (IsKin (merge.key engine.defaultKey)) (merge.spliced engine.defaultKey)
        (merge.meant engine.defaultKey) := isKin_mergedItems ..
    obtain ⟨after, flows, grown, still⟩ := entries.flowEntries engine deeper fuel data aligned aligned' plain plain' agree
      (fun node member => Nat.lt_of_le_of_lt (height_le_itemsHeight member) (by omega)) kin
    refine ⟨_, ?_, .merges known merge grown, fun same => ?_⟩
    · rw [flowNode]
      exact flowList_of_data (firstDirective?_of_data inert) rfl rfl flows
    · rw [known, weave_of_merge merge, content_list, content_list] at same
      simp only [Node.plain, Node.mk.injEq, Value.list.injEq, and_true] at same
      rw [still same]
  | @overridden fields b source value first notMap =>
    have taken := Binding.stubValues_isPlainData engine.defaultKey plain _ (List.mem_of_head? first)
    exact ⟨_, flowNode_inert (isInert_asMerged taken) enough (.inr (.inl rfl)),
      .overridden first notMap, fun _ => rfl⟩
  | @stays fields b source grow stays ordinary inside ih =>
    obtain ⟨fuel, rfl⟩ : ∃ n, fuel = n + 1 := ⟨fuel - 1, by omega⟩
    rw [height, Value.height] at enough
    have kept : mapOverride? engine.defaultKey
        ⟨.map (fields.map fun field => (field.1, grow field)), {}, source⟩ b' = none :=
      mapOverride?_of_stays rfl plain' (agree.symm ▸ stays)
    obtain ⟨after, flows, each⟩ := exists_flowFields (b := b')
      (flowNode engine deeper fuel) true grow (P := fun field after =>
        field.2.HasGrown engine.defaultKey (b.child field.1) after ∧
        ((grow field).content = (weave engine.defaultKey field.2
          ((b.child field.1).stubValues engine.defaultKey)).content → after = grow field))
      ordinary fun field member => by
        have lower := height_le_fieldsHeight
          (List.mem_map_of_mem (f := fun field => (field.1, grow field)) member)
        exact ih field member _ _ (aligned.child field.1) (aligned'.child field.1) plain plain'
          (by rw [Binding.stubValues_child aligned', Binding.stubValues_child aligned, agree])
          (Nat.lt_of_le_of_lt lower (by omega))
    refine ⟨⟨.map (fields.map fun field => (field.1, after field)), {}, source⟩, ?_,
      .stays stays ordinary fun field member => (each field member).1, fun same => ?_⟩
    · rw [flowNode]
      refine flowMap_of_data ?_ rfl kept flows
      simp only [List.mem_map]
      rintro _ ⟨field, member, rfl⟩
      exact ordinary field member
    · rw [weave_of_stays stays, weaveFields_eq_map, content_map, content_map, List.map_map,
        List.map_map] at same
      simp only [Node.plain, Node.mk.injEq, Value.map.injEq, and_true] at same
      rw [List.map_inj_left] at same
      have unchanged : (fields.map fun field => (field.1, after field)) =
          fields.map fun field => (field.1, grow field) := by
        refine List.map_congr_left fun field member => ?_
        have below := same field member
        simp only [Function.comp_apply, Prod.mk.injEq, true_and] at below
        rw [(each field member).2 (by rw [below, Binding.stubValues_child aligned])]
      rw [unchanged]

/-- The first pass over a seeded template merges its lists. -/
theorem first (deeper : Deeper) (b b' : Binding) (fuel : Nat)
    (woven : node.IsWoven engine.defaultKey values) (aligned : b.IsAligned)
    (aligned' : b'.IsAligned) (plain : ∀ stub ∈ b.document.stubs, stub.isPlainData = true)
    (plain' : ∀ stub ∈ b'.document.stubs, stub.isPlainData = true)
    (agree : b.stubValues engine.defaultKey = values)
    (agree' : b'.stubValues engine.defaultKey = values)
    (enough : (seedOverrides engine.defaultKey node b).height < fuel)
    (room : ∀ value ∈ values, value.height < fuel) :
    ∃ tree, flowNode engine deeper fuel (seedOverrides engine.defaultKey node b) b' true =
        pure (some tree) ∧ node.HasGrown engine.defaultKey b tree := by
  induction woven generalizing b b' fuel with
  | data data notMap =>
    exact ⟨_, flowNode_seedOverrides data enough aligned aligned' plain plain'
      (agree'.trans agree.symm), .data data notMap⟩
  | @merges items values source merge _ =>
    obtain ⟨fuel, rfl⟩ : ∃ n, fuel = n + 1 := ⟨fuel - 1, by omega⟩
    rw [seedOverrides_of_merge merge] at enough ⊢
    rw [height, Value.height] at enough
    have data := merge.isPlainData_spliced plain' agree'
    have low : ∀ entry ∈ merge.spliced engine.defaultKey, entry.height < fuel := by
      have here := room _ merge.mem_values
      rw [height, Value.height] at here
      intro entry member
      rcases mem_insertItems member with own | added
      · exact Nat.lt_of_le_of_lt (height_le_itemsHeight (List.mem_of_mem_eraseIdx own)) (by omega)
      · exact Nat.lt_of_le_of_lt (height_le_itemsHeight (List.mem_of_mem_filter added)) (by omega)
    refine ⟨_, merge.flowNode aligned' plain' agree' low, .merges agree merge ?_⟩
    rw [seedItems_congr data aligned' aligned plain' plain (agree'.trans agree.symm)]
    exact .of_seedItems data aligned plain
  | @overridden fields values source value first notMap =>
    have taken := Binding.stubValues_isPlainData engine.defaultKey plain value
      (List.mem_of_head? (agree ▸ first))
    rw [seedOverrides_of_overridden (agree ▸ first) notMap plain] at enough ⊢
    exact ⟨_, flowNode_inert (isInert_asMerged taken) enough (.inr (.inl rfl)),
      .overridden (agree ▸ first) notMap⟩
  | @stays fields values source stays ordinary inside ih =>
    obtain ⟨fuel, rfl⟩ : ∃ n, fuel = n + 1 := ⟨fuel - 1, by omega⟩
    rw [seedOverrides_of_stays ordinary plain (agree ▸ stays)] at enough ⊢
    rw [height, Value.height] at enough
    have kept : mapOverride? engine.defaultKey ⟨.map (fields.map fun field =>
        (field.1, seedOverrides engine.defaultKey field.2 (b.child field.1))), {}, source⟩ b' = none :=
      mapOverride?_of_stays rfl plain' (agree'.symm ▸ stays)
    obtain ⟨after, flows, each⟩ := exists_flowFields (b := b')
      (flowNode engine deeper fuel) true
      (fun field => seedOverrides engine.defaultKey field.2 (b.child field.1))
      (P := fun field after => field.2.HasGrown engine.defaultKey (b.child field.1) after)
      ordinary fun field member => by
        have lower := height_le_fieldsHeight (List.mem_map_of_mem
          (f := fun field => (field.1, seedOverrides engine.defaultKey field.2 (b.child field.1)))
          member)
        refine ih field member _ _ _ (aligned.child field.1) (aligned'.child field.1) plain plain'
          (by rw [Binding.stubValues_child aligned, agree])
          (by rw [Binding.stubValues_child aligned', agree'])
          (Nat.lt_of_le_of_lt lower (by omega)) fun value member => ?_
        obtain ⟨above, known, step⟩ := List.mem_filterMap.mp member
        have shorter := Node.height_of_stepBy? step
        have bound := room above known
        omega
    refine ⟨⟨.map (fields.map fun field => (field.1, after field)), {}, source⟩, ?_,
      .stays (agree ▸ stays) ordinary each⟩
    rw [flowNode]
    refine flowMap_of_data ?_ rfl kept flows
    simp only [List.mem_map]
    rintro _ ⟨field, member, rfl⟩
    exact ordinary field member

end Node.HasGrown

/-! ### Lists of keyed entries -/

mutual

/-- No map of the tree has two fields of one name. -/
def Node.hasDistinctNames : Node → Bool
  | ⟨value, _, _⟩ => Value.hasDistinctNames value

/-- No map of the value has two fields of one name. -/
def Value.hasDistinctNames : Value → Bool
  | .list items => itemsHaveDistinctNames items
  | .map fields => decide (Fields.keys fields).Nodup && fieldsHaveDistinctNames fields
  | _ => true

/-- No map of the items has two fields of one name. -/
def itemsHaveDistinctNames : List Node → Bool
  | [] => true
  | item :: rest => item.hasDistinctNames && itemsHaveDistinctNames rest

/-- No map below the fields has two fields of one name. -/
def fieldsHaveDistinctNames : List (String × Node) → Bool
  | [] => true
  | (_, child) :: rest => child.hasDistinctNames && fieldsHaveDistinctNames rest

end

theorem fieldsHaveDistinctNames_iff {fields : Fields Node} :
    fieldsHaveDistinctNames fields = true ↔ ∀ field ∈ fields, field.2.hasDistinctNames = true := by
  induction fields with
  | nil => simp [fieldsHaveDistinctNames]
  | cons field rest ih => simp [fieldsHaveDistinctNames, ih]

/-- A tree under itself is itself. -/
theorem overlay_self (defaultKey : String) {node : Node} (distinct : node.hasDistinctNames = true) :
    overlay defaultKey node [node] = node := by
  induction node using Node.treeInduction with
  | list items annotations source ih => rw [overlay] <;> simp
  | map fields annotations source ih =>
    rw [Node.hasDistinctNames, Value.hasDistinctNames, Bool.and_eq_true, decide_eq_true_eq,
      fieldsHaveDistinctNames_iff] at distinct
    rw [overlay, List.head?_cons, overlayFields_eq_map]
    refine congrArg (fun fields => Node.mk (.map fields) annotations source) ?_
    refine (List.map_congr_left fun field member => ?_).trans (List.map_id' fields)
    have step : (Node.mk (.map fields) annotations source).step? field.1 defaultKey =
        some field.2 := Fields.find?_of_mem distinct.1 member
    rw [List.filterMap_cons, step, List.filterMap_nil, ih field member (distinct.2 field member)]
  | leaf value annotations source notList notMap =>
    rw [overlay, List.head?_cons, Option.getD_some]
    rintro fields _ _ ⟨⟩
    exact notMap fields rfl

/-- The identity of an entry, which no entry of an index has. -/
def Node.IsKeyed (key : String) (entry : Node) : Prop :=
  ∃ identity, entry.identity? key = some identity ∧ Path.parseIndex? identity = none

/-- An entry with an identity that is no index meets the stub entry of the same identity. -/
theorem Node.IsKeyed.stepBy?_list {key : String} {entry : Node} (keyed : entry.IsKeyed key)
    (index : Nat) (added : List Node) (origin : String) :
    (Node.mk (.list added) {} origin).stepBy? (entry.entrySegment index key) key =
      entry.counterpart? key added := by
  obtain ⟨identity, own, noIndex⟩ := keyed
  rw [Node.entrySegment, own, Option.getD_some, Node.counterpart?, own, Option.bind_some]
  simp only [Node.stepBy?, noIndex]

/-- Entries with identities that are no indices are overlaid by the stub entries of the same
identities. -/
theorem overlayItems_of_keyed (defaultKey : String) {key : String} (added : List Node)
    (origin : String) {items : List Node}
    (keyed : ∀ entry ∈ items, entry.IsKeyed key) (index : Nat) :
    overlayItems defaultKey key [⟨.list added, {}, origin⟩] index items =
      items.map fun entry => entry.overlaidBy defaultKey key added := by
  induction items generalizing index with
  | nil => rw [overlayItems, List.map_nil]
  | cons entry rest ih =>
    have here := (keyed entry List.mem_cons_self).stepBy?_list index added origin
    rw [overlayItems, List.map_cons, ih fun entry member => keyed entry (List.mem_cons_of_mem _ member),
      Node.overlaidBy, List.filterMap_cons, here, List.filterMap_nil]
    cases entry.counterpart? key added <;> rfl

theorem counterpart?_of_mem {key : String} {added : List Node}
    (distinct : (added.filterMap (·.identity? key)).Nodup) {entry : Node} (member : entry ∈ added)
    {identity : String} (own : entry.identity? key = some identity) :
    entry.counterpart? key added = some entry := by
  rw [Node.counterpart?, own, Option.bind_some]
  induction added with
  | nil => cases member
  | cons first rest ih =>
    rw [List.find?_cons]
    rcases List.mem_cons.mp member with rfl | later
    · rw [own, beq_self_eq_true]
    · have known : identity ∈ rest.filterMap (·.identity? key) :=
        List.mem_filterMap.mpr ⟨entry, later, own⟩
      rw [List.filterMap_cons] at distinct
      cases other : first.identity? key with
      | none =>
        rw [other] at distinct
        exact ih distinct later
      | some name =>
        rw [other] at distinct
        obtain ⟨fresh, distinct⟩ := List.nodup_cons.mp distinct
        have differs : name ≠ identity := fun same => fresh (same ▸ known)
        simp only [Option.some_beq_some, beq_eq_false_iff_ne.mpr differs]
        exact ih distinct later

/-- Where all entries have identities that are no indices, different ones in the stub, a merge of
lists yields what is meant. -/
theorem ListMerge.isAddressed_of_keyed {items values : List Node} (merge : ListMerge items values)
    (defaultKey : String) (own : ∀ entry ∈ merge.own, entry.IsKeyed (merge.key defaultKey))
    (added : ∀ entry ∈ merge.added, entry.IsKeyed (merge.key defaultKey))
    (distinct : (merge.added.filterMap (·.identity? (merge.key defaultKey))).Nodup)
    (names : ∀ entry ∈ merge.added, entry.hasDistinctNames = true) :
    merge.IsAddressed defaultKey := by
  have keyed : ∀ entry ∈ merge.spliced defaultKey, entry.IsKeyed (merge.key defaultKey) := by
    intro entry member
    rcases mem_insertItems member with old | new
    · exact own entry old
    · exact added entry (List.mem_of_mem_filter new)
  -- new entries meet themselves
  have new : (newItems (merge.key defaultKey) merge.own merge.added).map
      (fun entry => entry.overlaidBy defaultKey (merge.key defaultKey) merge.added) =
      newItems (merge.key defaultKey) merge.own merge.added := by
    refine (List.map_congr_left fun entry member => ?_).trans (List.map_id' _)
    have known := List.mem_of_mem_filter member
    obtain ⟨identity, here, -⟩ := added entry known
    rw [Node.overlaidBy, counterpart?_of_mem distinct known here, Option.toList_some,
      overlay_self defaultKey (names entry known)]
  have addressed := overlayItems_of_keyed defaultKey merge.added merge.origin keyed 0
  have meant : (merge.spliced defaultKey).map
      (fun entry => entry.overlaidBy defaultKey (merge.key defaultKey) merge.added) =
      merge.meant defaultKey := by
    rw [spliced, insertItems, List.map_append, List.map_append, new]
    rfl
  rw [← merge.given] at addressed
  rw [IsAddressed, addressed, meant]

/-! ### Cascades that merge lists -/

section

variable {engine : Engine} {deeper : Deeper} {s : Setting} {template tree : Node}
  (plain : ∀ stub ∈ s.stubs, stub.isPlainData = true) (overridden : s.overridable = true)

include plain overridden

/-- A pass over a document goes on with it, and leaves it if it has the content that is meant. -/
theorem pass_of_hasGrown (deeper : Deeper)
    (grown : template.HasGrown engine.defaultKey (s.rootBinding template) tree) :
    ∃ after, pass engine deeper s tree = pure after ∧
      template.HasGrown engine.defaultKey (s.rootBinding template) after ∧
      (tree.content = (weave engine.defaultKey template s.stubs).content → after = tree) := by
  obtain ⟨after, flows, grows, still⟩ := grown.next deeper (s.rootBinding tree)
    (tree.height + itemsHeight s.stubs + 1 + deeper.fuel)
    isAligned_rootBinding isAligned_rootBinding plain plain
    (by rw [stubValues_rootBinding, stubValues_rootBinding]) (by omega)
  refine ⟨after, ?_, grows, fun same => still (by rw [stubValues_rootBinding, same])⟩
  rw [pass, overridden, flows, pure_bind, Option.getD_some]

/-- Whatever a document settles to has grown from its template. -/
theorem hasGrown_of_settleWithin (passes : Nat)
    (grown : template.HasGrown engine.defaultKey (s.rootBinding template) tree) :
    ∃ settled : Option Node, settleWithin engine deeper s passes tree = pure settled ∧
      ∀ tree ∈ settled, template.HasGrown engine.defaultKey (s.rootBinding template) tree := by
  induction passes generalizing tree with
  | zero => exact ⟨none, rfl, by simp⟩
  | succ passes ih =>
    obtain ⟨after, flows, grows, -⟩ := pass_of_hasGrown plain overridden deeper grown
    rw [settleWithin, flows, pure_bind]
    split
    · exact ⟨some after, rfl, by simpa using grows⟩
    · exact ih grows

/-- The first pass over the seeded template merges its lists. -/
theorem pass_of_woven (woven : template.IsWoven engine.defaultKey s.stubs) :
    ∃ tree, pass engine deeper s (s.seeded engine template) = pure tree ∧
      template.HasGrown engine.defaultKey (s.rootBinding template) tree := by
  have seeded : s.seeded engine template =
      seedOverrides engine.defaultKey template (s.rootBinding template) := by
    rw [Setting.seeded, if_pos overridden]
  obtain ⟨tree, flows, grown⟩ := Node.HasGrown.first deeper (s.rootBinding template)
    (s.rootBinding (s.seeded engine template))
    ((s.seeded engine template).height + itemsHeight s.stubs + 1 + deeper.fuel) woven
    isAligned_rootBinding isAligned_rootBinding plain plain stubValues_rootBinding
    stubValues_rootBinding (by rw [seeded]; omega)
    fun value member => Nat.lt_of_le_of_lt (height_le_itemsHeight member) (by omega)
  refine ⟨tree, ?_, grown⟩
  rw [pass, overridden]
  rw [← seeded] at flows
  rw [flows, pure_bind, Option.getD_some]

end

/-- A cascade of a template that is data but for lists with merges, with plain stubs, yields what is
meant exactly if every entry of its spliced lists meets the stub entry that it is meant to meet. -/
theorem cascade_mergedLists (engine : Engine) (passes : 2 ≤ engine.maxPasses) (template : Node)
    (stubs : List Node) (plain : ∀ stub ∈ stubs, stub.isPlainData = true)
    (woven : template.IsWoven engine.defaultKey stubs) (state : Option Node) (world : World) :
    (∃ outcome world', (engine.cascade template stubs state).run world =
        some (.ok outcome, world') ∧
      outcome.document.content = (weave engine.defaultKey template stubs).content) ↔
    template.IsAddressed engine.defaultKey stubs := by
  let s := cascadeSetting ⟨world.documents + 1, []⟩ stubs state
  obtain ⟨more, enough⟩ : ∃ more, engine.maxPasses = more + 2 := ⟨engine.maxPasses - 2, by omega⟩
  obtain ⟨tree, flows, grown⟩ : ∃ tree, pass engine (engine.below 0) s (s.seeded engine template) =
      pure tree ∧ template.HasGrown engine.defaultKey (s.rootBinding template) tree :=
    pass_of_woven plain rfl woven
  have content_iff {tree : Node}
      (grown : template.HasGrown engine.defaultKey (s.rootBinding template) tree) :
      tree.content = (weave engine.defaultKey template stubs).content ↔
        template.IsAddressed engine.defaultKey stubs := by
    have compared := grown.content_iff isAligned_rootBinding plain
    rwa [stubValues_rootBinding] at compared
  constructor
  · rintro ⟨outcome, world', cascades, same⟩
    obtain ⟨settled, settles, grew⟩ : ∃ settled : Option Node,
        settle engine (engine.below 0) s template = pure settled ∧
        ∀ tree ∈ settled, template.HasGrown engine.defaultKey (s.rootBinding template) tree := by
      rw [settle, enough, settleWithin, flows, pure_bind]
      split
      · exact ⟨some tree, rfl, by simpa using grown⟩
      · exact hasGrown_of_settleWithin plain rfl _ grown
    rw [cascade_of_settle (by omega) plain settles] at cascades
    cases settled with
    | none => cases cascades
    | some last =>
      have grown := grew last rfl
      have shown := grown.isShown isAligned_rootBinding plain
      rw [Engine.outcomeOfSettled, outcomeOfTree_of_shown shown] at cascades
      cases cascades
      exact (content_iff grown).mp same
  · intro addressed
    have meant := (content_iff grown).mpr addressed
    obtain ⟨after, still, -, rests⟩ := pass_of_hasGrown (s := s) plain rfl (engine.below 0) grown
    obtain rfl := rests meant
    have shown := grown.isShown isAligned_rootBinding plain
    have settles : settle engine (engine.below 0) s template = pure (some after) := by
      rw [settle, enough, settleWithin, flows, pure_bind]
      split
      · rfl
      · rw [settleWithin, still, pure_bind, if_pos (Node.same_of_data shown)]
    refine ⟨⟨after, none, none⟩, { world with documents := world.documents + 2 }, ?_, meant⟩
    rw [cascade_of_settle (by omega) plain settles, Engine.outcomeOfSettled,
      outcomeOfTree_of_shown shown]

/-- An entry that merges. -/
def mergeEntry : Node := .plain (.map [(directiveKey, .plain (.string "(( merge ))") "t")]) "t"

/-- A port with a name. -/
def portEntry (name : String) (port : Int64) (source : String) : Node :=
  .plain (.map [("name", .plain (.string name) source), ("port", .plain (.int port) source)]) source

/-- A document with the field `l`. -/
def listDocument (items : List Node) (source : String) : Node :=
  .plain (.map [("l", .plain (.list items) source)]) source

/-- A list that merges between two ports. -/
def portList : List Node := [portEntry "http" 80 "t", mergeEntry, portEntry "ssh" 22 "t"]

/-- Another port for a name of the list, and one for a new name. -/
def addedPorts : List Node := [portEntry "ssh" 2222 "s", portEntry "dns" 53 "s"]

/-- The stub list of ports is merged into the list. -/
def portMerge : ListMerge portList [.plain (.list addedPorts) "s"] where
  position := 1
  form := ⟨none, false, false, none⟩
  directive := by decide +kernel
  inPlace := rfl
  additive := rfl
  data := by decide +kernel
  added := addedPorts
  origin := "s"
  given := rfl

/-- A template with the field `l` asks for the merge of its list. -/
theorem weaves_listDocument {P : (items values : List Node) → ListMerge items values → Prop}
    {items added : List Node} {source origin : String}
    (merge : ListMerge items [.plain (.list added) origin])
    (holds : P items [.plain (.list added) origin] merge) :
    (listDocument items source).Weaves "name" P [listDocument added origin] := by
  refine .stays ?_ ?_ ?_
  · rintro value ⟨⟩
    exact ⟨_, rfl⟩
  · rw [List.forall_mem_singleton]
    exact show controlSuffix? "l" = none by decide
  · rw [List.forall_mem_singleton]
    exact .merges merge holds

/-- The names and ports in the field `l`; of an entry that is a number, the number. -/
def Node.listedPorts (node : Node) : Option (List (Option String × Option Int64)) := do
  let list ← node.field? "l"
  let items ← list.value.asList?
  return items.map fun item => (item.identity? "name", ((item.field? "port").getD item).value.asInt?)

theorem cascade_portList :
    (∀ stub ∈ [listDocument addedPorts "s"], stub.isPlainData = true) ∧
    (listDocument portList "t").IsWoven "name" [listDocument addedPorts "s"] ∧
    ∃ outcome world', (Engine.standard.cascade (listDocument portList "t")
        [listDocument addedPorts "s"] none).run {} = some (.ok outcome, world') ∧
      outcome.document.content.listedPorts =
        some [(some "http", some 80), (some "dns", some 53), (some "ssh", some 2222)] := by
  have plain : ∀ stub ∈ [listDocument addedPorts "s"], stub.isPlainData = true := by decide +kernel
  have woven : (listDocument portList "t").IsWoven "name" [listDocument addedPorts "s"] :=
    weaves_listDocument portMerge trivial
  have keyed (name : String) (port : Int64) (source : String)
      (noIndex : Path.parseIndex? name = none) : (portEntry name port source).IsKeyed "name" :=
    ⟨name, rfl, noIndex⟩
  have addressed : (listDocument portList "t").IsAddressed "name" [listDocument addedPorts "s"] := by
    refine weaves_listDocument portMerge (portMerge.isAddressed_of_keyed "name" ?_ ?_ ?_ ?_)
    · exact List.forall_mem_cons.mpr ⟨keyed "http" 80 "t" (by decide +kernel),
        List.forall_mem_singleton.mpr (keyed "ssh" 22 "t" (by decide +kernel))⟩
    · exact List.forall_mem_cons.mpr ⟨keyed "ssh" 2222 "s" (by decide +kernel),
        List.forall_mem_singleton.mpr (keyed "dns" 53 "s" (by decide +kernel))⟩
    · decide +kernel
    · decide +kernel
  have meant : (weave "name" (listDocument portList "t")
      [listDocument addedPorts "s"]).content.listedPorts =
        some [(some "http", some 80), (some "dns", some 53), (some "ssh", some 2222)] := by
    decide +kernel
  obtain ⟨outcome, world', succeeds, content⟩ :=
    (cascade_mergedLists Engine.standard (by decide) (listDocument portList "t")
      [listDocument addedPorts "s"] plain woven none {}).mpr addressed
  refine ⟨plain, woven, outcome, world', succeeds, ?_⟩
  rw [content]
  exact meant

/-- A list with a number before the entry that merges. -/
def countList : List Node := [.plain (.int 1) "t", mergeEntry]

/-- Two more numbers. -/
def addedCounts : List Node := [.plain (.int 10) "s", .plain (.int 20) "s"]

/-- The stub list of numbers is merged into the list. -/
def countMerge : ListMerge countList [.plain (.list addedCounts) "s"] where
  position := 1
  form := ⟨none, false, false, none⟩
  directive := by decide +kernel
  inPlace := rfl
  additive := rfl
  data := by decide +kernel
  added := addedCounts
  origin := "s"
  given := rfl

/-- The names and ports in the document of a cascade that succeeds. -/
def cascadedPorts (engine : Engine) (template : Node) (stubs : List Node) :
    Option (List (Option String × Option Int64)) := do
  let (answer, _) ← (engine.cascade template stubs none).run {}
  let outcome ← answer.toOption
  outcome.document.content.listedPorts

/-- The own entry at the index 0 meets the entry of the stub at the index 0, and the entry that is
put in at the index 1 meets the entry of the stub at the index 1: the 1 is lost, and the 20 is there
twice. -/
theorem cascade_countList :
    (∀ stub ∈ [listDocument addedCounts "s"], stub.isPlainData = true) ∧
    (listDocument countList "t").IsWoven "name" [listDocument addedCounts "s"] ∧
    ¬ ∃ outcome world', (Engine.standard.cascade (listDocument countList "t")
        [listDocument addedCounts "s"] none).run {} = some (.ok outcome, world') ∧
      outcome.document.content =
        (weave "name" (listDocument countList "t") [listDocument addedCounts "s"]).content := by
  refine ⟨by decide +kernel, weaves_listDocument countMerge trivial, ?_⟩
  rintro ⟨outcome, world', succeeds, same⟩
  have cascaded : cascadedPorts Engine.standard (listDocument countList "t")
      [listDocument addedCounts "s"] =
        some [(none, some 10), (none, some 20), (none, some 20)] := by decide +kernel
  have meant : (weave "name" (listDocument countList "t")
      [listDocument addedCounts "s"]).content.listedPorts =
        some [(none, some 1), (none, some 10), (none, some 20)] := by decide +kernel
  have found : cascadedPorts Engine.standard (listDocument countList "t")
      [listDocument addedCounts "s"] = outcome.document.content.listedPorts := by
    rw [cascadedPorts, succeeds]
    rfl
  rw [found, same, meant] at cascaded
  exact absurd cascaded (by decide)

end Cascade
