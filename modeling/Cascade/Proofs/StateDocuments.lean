import Mathlib.Data.List.DropRight
import Cascade.Proofs.DefaultValues
import Cascade.Proofs.EntryPaths

/-!
# State documents

The state document of a tree has the state nodes and the containers that lead to them. Entries
without state are left out of lists whose entries all have identities, and are nil in other lists;
nothing stands behind the last entry with state. A container that was cut down still has the fields
that identify it. So the path of a state node in the tree, read in the state document, leads to the
state node.

## Main statements

* `identity?_keepIdentity`: an entry keeps its identity.
* `step?_of_field`, `step?_of_entry`: a step in a state document.
* `Node.extractState?_eq_none_iff`: a tree without state has no state document.
* `lookup_stateDocument`: state is found again.
-/

namespace Cascade

section

variable {defaultKey : String}

/-! ### Nodes with state -/

theorem Node.extractState?_of_flagged {node : Node} (flagged : node.annotations.state = true) :
    node.extractState? defaultKey =
      some { node with annotations := { node.annotations with state := false } } := by
  obtain ⟨value, annotations, source⟩ := node
  rw [extractState?, if_pos flagged]

theorem Node.extractState?_of_unflagged {node : Node} (unflagged : node.annotations.state = false) :
    node.extractState? defaultKey =
      Value.extractState? defaultKey node.source node.annotations.keyName node.value := by
  obtain ⟨value, annotations, source⟩ := node
  rw [extractState?, if_neg (by simpa using unflagged)]

/-- The state document of a map. -/
theorem Node.extractState?_map {node : Node} {fields : Fields Node}
    (unflagged : node.annotations.state = false) (shape : node.value = .map fields) {state : Node} :
    node.extractState? defaultKey = some state ↔
      extractStateFields defaultKey fields ≠ [] ∧
        state = .plain (.map (extractStateFields defaultKey fields)) node.source := by
  rw [extractState?_of_unflagged unflagged, shape, Value.extractState?]
  cases extractStateFields defaultKey fields <;> simp [eq_comm]

/-- The state document of a list. -/
theorem Node.extractState?_list {node : Node} {items : List Node}
    (unflagged : node.annotations.state = false) (shape : node.value = .list items) {state : Node} :
    node.extractState? defaultKey = some state ↔
      upToLastState (extractStateItems defaultKey items) ≠ [] ∧
        state = ⟨.list (listState (items.all fun item =>
          (item.identity? (node.keyName defaultKey)).isSome) (node.keyName defaultKey)
            (upToLastState (extractStateItems defaultKey items))),
          { keyName := node.annotations.keyName }, node.source⟩ := by
  rw [extractState?_of_unflagged unflagged, shape, Value.extractState?]
  cases upToLastState (extractStateItems defaultKey items) <;> simp [eq_comm, keyName]

/-! ### Entries and their identities -/

theorem Fields.find?_insertIfAbsent {α : Type} (fields : Fields α) (key name : String) (value : α) :
    find? (insertIfAbsent key value fields) name =
      (find? fields name).or (if key = name then some value else none) := by
  rw [insertIfAbsent, contains]
  split
  · next known =>
    split
    · next same =>
      obtain ⟨old, found⟩ := Option.isSome_iff_exists.mp known
      rw [← same, found]
      rfl
    · rw [Option.or_none]
  · next unknown =>
    rw [find?_insert]
    split
    · next same =>
      rw [← same, Option.not_isSome_iff_eq_none.mp unknown]
      rfl
    · rw [Option.or_none]

/-- What is found in the state of an entry is found when its identity was added. -/
theorem step?_keepIdentity {key segment : String} {entry state child : Node}
    (found : state.step? segment defaultKey = some child) :
    (keepIdentity key entry state).step? segment defaultKey = some child := by
  unfold keepIdentity
  split
  · next identity fields own shape =>
    have inside : Fields.find? fields segment = some child := by
      rw [Node.step?, Node.stepBy?, shape] at found
      exact found
    change Fields.find? (Fields.insertIfAbsent key identity fields) segment = some child
    rw [Fields.find?_insertIfAbsent, inside]
    rfl
  · exact found

/-- An entry that is a state node as a whole stays as it is. -/
theorem keepIdentity_of_flagged {key : String} {entry state : Node}
    (flagged : entry.annotations.state = true)
    (extracted : entry.extractState? defaultKey = some state) :
    keepIdentity key entry state = state := by
  obtain ⟨value, annotations, source⟩ := entry
  rw [Node.extractState?_of_flagged flagged] at extracted
  cases extracted
  unfold keepIdentity
  split
  · next identity fields own shape =>
    cases shape
    have known : Fields.contains fields key = true := Option.isSome_iff_exists.mpr ⟨identity, own⟩
    rw [Fields.insertIfAbsent, if_pos known]
    rfl
  · rfl

/-- The identity that a value gives to the map that has it in its key field. -/
def Value.identityText? : Value → Option String
  | .string s => some s
  | .int n => some (toString n.toInt)
  | _ => none

theorem Node.identity?_eq_bind (node : Node) (key : String) :
    node.identity? key = (node.field? key).bind (·.value.identityText?) := by
  unfold identity?
  cases node.field? key with
  | none => rfl
  | some own =>
    obtain ⟨value, annotations, source⟩ := own
    cases value <;> rfl

/-- What was cut down to its state identifies what the whole does. -/
theorem identityText?_of_extractState? {node state : Node}
    (extracted : node.extractState? defaultKey = some state) :
    state.value.identityText? = node.value.identityText? := by
  cases flagged : node.annotations.state with
  | true =>
    rw [Node.extractState?_of_flagged flagged] at extracted
    cases extracted
    rfl
  | false =>
    obtain ⟨value, annotations, source⟩ := node
    cases value with
    | list items =>
      obtain ⟨-, rfl⟩ := (Node.extractState?_list flagged rfl).mp extracted
      rfl
    | map fields =>
      obtain ⟨-, rfl⟩ := (Node.extractState?_map flagged rfl).mp extracted
      rfl
    | _ =>
      rw [Node.extractState?_of_unflagged flagged] at extracted
      cases extracted

/-- The fields of a state document are the state documents of fields. -/
theorem find?_extractStateFields {fields : Fields Node} (distinct : (Fields.keys fields).Nodup)
    (key : String) :
    Fields.find? (extractStateFields defaultKey fields) key =
      (Fields.find? fields key).bind (·.extractState? defaultKey) := by
  rw [extractStateFields_eq_filterMap]
  cases whole : (Fields.find? fields key).bind (·.extractState? defaultKey) with
  | some state =>
    obtain ⟨child, found, extracted⟩ := Option.bind_eq_some_iff.mp whole
    exact Fields.find?_filterMap found extracted
  | none =>
    rw [Fields.find?_eq_none_iff]
    rintro _ member rfl
    obtain ⟨field, inside, changed⟩ := List.mem_filterMap.mp member
    obtain ⟨state, extracted, rfl⟩ := Option.map_eq_some_iff.mp changed
    rw [Fields.find?_of_mem distinct inside, Option.bind_some, extracted] at whole
    cases whole

/-- An entry that was cut down to its state keeps its identity. -/
theorem identity?_keepIdentity {key : String} {entry state : Node}
    (apart : entry.tellsApart defaultKey = true)
    (extracted : entry.extractState? defaultKey = some state) :
    (keepIdentity key entry state).identity? key = entry.identity? key := by
  rw [Node.identity?_eq_bind, Node.identity?_eq_bind]
  cases flagged : entry.annotations.state with
  | true =>
    rw [keepIdentity_of_flagged flagged extracted]
    rw [Node.extractState?_of_flagged flagged] at extracted
    cases extracted
    rfl
  | false =>
    obtain ⟨value, annotations, source⟩ := entry
    cases value with
    | list items =>
      obtain ⟨-, rfl⟩ := (Node.extractState?_list flagged rfl).mp extracted
      rfl
    | map fields =>
      obtain ⟨-, rfl⟩ := (Node.extractState?_map flagged rfl).mp extracted
      have states := @find?_extractStateFields defaultKey fields (of_decide_eq_true apart) key
      rw [keepIdentity]
      cases found : Fields.find? fields key with
      | none =>
        rw [found] at states
        simp only [Node.field?_map, found, Node.plain, states, Option.bind_none]
      | some own =>
        rw [found, Option.bind_some] at states
        have named : Fields.find? (Fields.insertIfAbsent key own (extractStateFields defaultKey fields))
            key = some ((own.extractState? defaultKey).getD own) := by
          rw [Fields.find?_insertIfAbsent, states, if_pos rfl]
          cases own.extractState? defaultKey <;> rfl
        simp only [Node.field?_map, found, Node.plain, Node.withValue, named, Option.bind_some]
        cases kept : own.extractState? defaultKey with
        | none => rfl
        | some state => exact identityText?_of_extractState? kept
    | _ =>
      rw [Node.extractState?_of_unflagged flagged] at extracted
      cases extracted

/-! ### Lists of entries with and without state -/

/-- A list some of whose entries have no identity keeps its indices. -/
theorem listState_eq_map (key : String) (states : List (Node × Option Node)) :
    listState false key states =
      states.map fun s => s.2.elim (.plain .nil s.1.source) (keepIdentity key s.1) := by
  induction states with
  | nil => rfl
  | cons first rest ih =>
    obtain ⟨entry, state⟩ := first
    cases state <;> simp [listState, ih]

/-- An entry is found by its identity among those that are left. -/
theorem find?_listState {keyed : Bool} {key identity : String} {states : List (Node × Option Node)}
    (keeps : ∀ entry state, (entry, some state) ∈ states →
      (keepIdentity key entry state).identity? key = entry.identity? key)
    (distinct : (states.filterMap (·.1.identity? key)).Nodup) {entry state : Node}
    (member : (entry, some state) ∈ states) (own : entry.identity? key = some identity) :
    (listState keyed key states).find? (fun other => other.identity? key == some identity) =
      some (keepIdentity key entry state) := by
  induction states with
  | nil => cases member
  | cons first rest ih =>
    obtain ⟨other, state'⟩ := first
    obtain ⟨apart, differs⟩ := nodup_filterMap_cons distinct
    have later := ih (fun entry state member => keeps entry state (List.mem_cons_of_mem _ member))
      apart
    rcases List.mem_cons.mp member with here | there
    · cases here
      have kept := keeps entry state List.mem_cons_self
      rw [listState, List.find?_cons, kept, own, beq_self_eq_true]
    · have apart' : ¬(other.identity? key == some identity) = true := by
        simpa using differs _ there identity own
      cases state' with
      | some state' =>
        rw [listState, List.find?_cons_of_neg
          (by rwa [keeps other state' List.mem_cons_self]), later there]
      | none =>
        -- an entry without state is left out, or it is nil and has no identity
        cases keyed with
        | true => exact later there
        | false =>
          change (Node.plain .nil other.source :: listState false key rest).find? _ = _
          rw [List.find?_cons_of_neg Bool.false_ne_true, later there]

theorem upToLastState_eq_rdropWhile (states : List (Node × Option Node)) :
    upToLastState states = states.rdropWhile (·.2.isNone) := rfl

theorem upToLastState_eq_nil_iff {states : List (Node × Option Node)} :
    upToLastState states = [] ↔ ∀ s ∈ states, s.2 = none := by
  rw [upToLastState_eq_rdropWhile, List.rdropWhile_eq_nil_iff]
  simp only [Option.isNone_iff_eq_none]

/-- Entries with state stay where they are. -/
theorem getElem?_upToLastState {states : List (Node × Option Node)} {position : Nat}
    {entry state : Node} (found : states[position]? = some (entry, some state)) :
    (upToLastState states)[position]? = some (entry, some state) := by
  rw [upToLastState_eq_rdropWhile]
  have split := List.rdropWhile_append_rtakeWhile (p := fun s : Node × Option Node => s.2.isNone) (l := states)
  rw [← split] at found
  by_cases inside : position < (states.rdropWhile (·.2.isNone)).length
  · rwa [List.getElem?_append_left inside] at found
  · rw [List.getElem?_append_right (by omega)] at found
    -- what is cut off has no state
    have stateless := List.mem_rtakeWhile_imp (List.mem_of_getElem? found)
    cases stateless

theorem upToLastState_sublist (states : List (Node × Option Node)) :
    (upToLastState states).Sublist states := (List.rdropWhile_prefix _ _).sublist

section

variable {items : List Node}

/-- What is left of a list are entries with their own state. -/
theorem mem_upToLastState {entry : Node} {state : Option Node}
    (member : (entry, state) ∈ upToLastState (extractStateItems defaultKey items)) :
    entry ∈ items ∧ entry.extractState? defaultKey = state := by
  have known := (upToLastState_sublist _).subset member
  rw [extractStateItems_eq_map] at known
  obtain ⟨item, inside, same⟩ := List.mem_map.mp known
  obtain ⟨rfl, extracted⟩ := Prod.mk.inj same
  exact ⟨inside, extracted⟩

theorem nodup_upToLastState {key : String} (distinct : (items.filterMap (·.identity? key)).Nodup) :
    ((upToLastState (extractStateItems defaultKey items)).filterMap (·.1.identity? key)).Nodup := by
  refine ((upToLastState_sublist _).filterMap _).nodup ?_
  rw [extractStateItems_eq_map, List.filterMap_map]
  exact distinct

end

/-! ### Steps in a state document -/

theorem step?_of_field {node child state : Node} {fields : Fields Node} {key : String}
    {position : Nat} (unflagged : node.annotations.state = false) (shape : node.value = .map fields)
    (distinct : (Fields.keys fields).Nodup) (found : fields[position]? = some (key, child))
    (extracted : child.extractState? defaultKey = some state) :
    ∃ document, node.extractState? defaultKey = some document ∧
      document.step? key defaultKey = some state := by
  have inside : Fields.find? (extractStateFields defaultKey fields) key = some state := by
    rw [find?_extractStateFields distinct, Fields.find?_of_mem distinct (List.mem_of_getElem? found),
      Option.bind_some, extracted]
  have nonempty : extractStateFields defaultKey fields ≠ [] := by
    intro empty
    rw [empty] at inside
    cases inside
  exact ⟨_, (Node.extractState?_map unflagged shape).mpr ⟨nonempty, rfl⟩, inside⟩

/-- No identity of an entry of the list reads as an index. -/
def Node.hasNamedEntries (defaultKey : String) (node : Node) : Bool :=
  match node.value with
  | .list items => items.all fun item =>
    ((item.identity? (node.keyName defaultKey)).bind Path.parseIndex?).isNone
  | _ => true

theorem step?_of_entry {node child state : Node} {items : List Node} {position : Nat}
    (unflagged : node.annotations.state = false) (shape : node.value = .list items)
    (apart : node.tellsApart defaultKey = true)
    (entriesApart : ∀ item ∈ items, item.tellsApart defaultKey = true)
    (named : node.hasNamedEntries defaultKey = true) (found : items[position]? = some child)
    (extracted : child.extractState? defaultKey = some state) :
    ∃ document, node.extractState? defaultKey = some document ∧
      document.step? (child.entrySegment position (node.keyName defaultKey)) defaultKey =
        some (keepIdentity (node.keyName defaultKey) child state) := by
  rw [Node.tellsApart, shape, Bool.and_eq_true, decide_eq_true_eq, decide_eq_true_eq] at apart
  obtain ⟨short, distinct⟩ := apart
  rw [Node.hasNamedEntries, shape, List.all_eq_true] at named
  have stands : (upToLastState (extractStateItems defaultKey items))[position]? =
      some (child, some state) := by
    refine getElem?_upToLastState ?_
    rw [extractStateItems_eq_map, List.getElem?_map, found, Option.map_some, extracted]
  have nonempty : upToLastState (extractStateItems defaultKey items) ≠ [] := by
    intro empty
    rw [empty] at stands
    cases stands
  refine ⟨_, (Node.extractState?_list unflagged shape).mpr ⟨nonempty, rfl⟩, ?_⟩
  change Node.stepBy? ⟨.list _, _, _⟩ _ (node.keyName defaultKey) = _
  cases own : child.identity? (node.keyName defaultKey) with
  | none =>
    -- the list keeps its indices, because this entry has no identity
    have unkeyed : (items.all fun item => (item.identity? (node.keyName defaultKey)).isSome) = false :=
      List.all_eq_false.mpr ⟨child, List.mem_of_getElem? found, by simp [own]⟩
    have inside := (List.getElem?_eq_some_iff.mp stands).1
    have within : position < items.length := (List.getElem?_eq_some_iff.mp found).1
    have index : Path.parseIndex? (child.entrySegment position (node.keyName defaultKey)) =
        some (position : Int) := by
      rw [Node.entrySegment, own, Option.getD_none, Path.parseIndex?_indexSegment (by omega)]
    simp only [Node.stepBy?, index, unkeyed, listState_eq_map, List.length_map,
      Path.resolveIndex?_of_lt inside, Option.bind_some, List.getElem?_map, stands, Option.map_some,
      Option.elim_some]
  | some identity =>
    -- the entry is searched by its identity, which what is left of the entries still have
    have noIndex : Path.parseIndex? identity = none := by
      simpa [own] using named child (List.mem_of_getElem? found)
    have segment : child.entrySegment position (node.keyName defaultKey) = identity := by
      rw [Node.entrySegment, own, Option.getD_some]
    have keeps : ∀ entry state, (entry, some state) ∈
        upToLastState (extractStateItems defaultKey items) →
        (keepIdentity (node.keyName defaultKey) entry state).identity? (node.keyName defaultKey) =
          entry.identity? (node.keyName defaultKey) := by
      intro entry state member
      obtain ⟨inside, extracted⟩ := mem_upToLastState member
      exact identity?_keepIdentity (entriesApart entry inside) extracted
    simp only [Node.stepBy?, segment, noIndex]
    exact find?_listState keeps (nodup_upToLastState distinct) (List.mem_of_getElem? stands) own

/-- The state of an entry is found where it was, with its identity in its place. -/
theorem lookup?_keepIdentity {key : String} {entry state target : Node} {path : List String}
    (extracted : entry.extractState? defaultKey = some state)
    (found : state.lookup? path defaultKey = some target)
    (whole : path = [] → entry.annotations.state = true) :
    (keepIdentity key entry state).lookup? path defaultKey = some target := by
  cases path with
  | nil => rwa [keepIdentity_of_flagged (whole rfl) extracted]
  | cons segment rest =>
    rw [Node.lookup?_cons] at found ⊢
    obtain ⟨next, step, onward⟩ := Option.bind_eq_some_iff.mp found
    rw [step?_keepIdentity step, Option.bind_some, onward]

/-! ### State documents of trees -/

/-- The path of a state node leads to it in the state document. -/
theorem Node.Walk.lookup?_extractState? {tree target : Node} {steps : List Descent}
    (apart : tree.everywhere (Node.tellsApart defaultKey) = true)
    (named : tree.everywhere (Node.hasNamedEntries defaultKey) = true)
    (walk : tree.Walk defaultKey steps target) (flagged : target.annotations.state = true)
    (unflagged : ∀ d ∈ steps, d.container.annotations.state = false) :
    ∃ document, tree.extractState? defaultKey = some document ∧
      document.lookup? (steps.map Descent.segment) defaultKey =
        some { target with annotations := { target.annotations with state := false } } := by
  induction walk with
  | here node => exact ⟨_, extractState?_of_flagged flagged, rfl⟩
  | @field node child target fields key steps position shape found onward ih =>
    obtain ⟨here, below⟩ := (everywhere_map_iff shape).mp apart
    obtain ⟨-, namedBelow⟩ := (everywhere_map_iff shape).mp named
    rw [tellsApart, shape, decide_eq_true_eq] at here
    obtain ⟨outside, inside⟩ := List.forall_mem_cons.mp unflagged
    have member := List.mem_of_getElem? found
    obtain ⟨state, extracted, later⟩ := ih (below _ member) (namedBelow _ member) flagged inside
    obtain ⟨document, whole, step⟩ := step?_of_field outside shape here found extracted
    refine ⟨document, whole, ?_⟩
    rw [List.map_cons, lookup?_cons, step, Option.bind_some, later]
  | @entry node child target items steps position shape found onward ih =>
    obtain ⟨here, below⟩ := (everywhere_list_iff shape).mp apart
    obtain ⟨namedHere, namedBelow⟩ := (everywhere_list_iff shape).mp named
    obtain ⟨outside, inside⟩ := List.forall_mem_cons.mp unflagged
    have member := List.mem_of_getElem? found
    obtain ⟨state, extracted, later⟩ := ih (below _ member) (namedBelow _ member) flagged inside
    obtain ⟨document, whole, step⟩ := step?_of_entry outside shape here
      (fun item member => test_of_everywhere (below item member)) namedHere found extracted
    refine ⟨document, whole, ?_⟩
    rw [List.map_cons, lookup?_cons, step, Option.bind_some]
    -- a path that ends at an entry needs the entry itself to be the state node
    refine lookup?_keepIdentity extracted later fun atEnd => ?_
    obtain rfl := List.map_eq_nil_iff.mp atEnd
    cases onward
    exact flagged

/-- A tree has no state document exactly if it has no state. -/
theorem Node.extractState?_eq_none_iff (tree : Node) :
    tree.extractState? defaultKey = none ↔ tree.everywhere (!·.annotations.state) = true := by
  induction tree using Node.treeInduction with
  | list items annotations source ih =>
    rw [everywhere_list_iff rfl]
    cases flagged : annotations.state with
    | true => simp [extractState?_of_flagged, flagged]
    | false =>
      have isEmpty : extractState? defaultKey ⟨.list items, annotations, source⟩ = none ↔
          upToLastState (extractStateItems defaultKey items) = [] := by
        rw [extractState?_of_unflagged flagged, Value.extractState?]
        cases upToLastState (extractStateItems defaultKey items) <;> simp
      rw [isEmpty, upToLastState_eq_nil_iff, extractStateItems_eq_map, List.forall_mem_map]
      simp only [Bool.not_false, true_and]
      exact forall₂_congr ih
  | map fields annotations source ih =>
    rw [everywhere_map_iff rfl]
    cases flagged : annotations.state with
    | true => simp [extractState?_of_flagged, flagged]
    | false =>
      have isEmpty : extractState? defaultKey ⟨.map fields, annotations, source⟩ = none ↔
          extractStateFields defaultKey fields = [] := by
        rw [extractState?_of_unflagged flagged, Value.extractState?]
        cases extractStateFields defaultKey fields <;> simp
      rw [isEmpty, extractStateFields_eq_filterMap, List.filterMap_eq_nil_iff]
      simp only [Bool.not_false, true_and, Option.map_eq_none_iff]
      exact forall₂_congr ih
  | leaf value annotations source notList notMap =>
    cases flagged : annotations.state with
    | true => simp [extractState?_of_flagged, flagged, everywhere]
    | false =>
      rw [extractState?_of_unflagged flagged]
      cases value <;> simp_all [Value.extractState?, everywhere, Value.everywhere]

/-- Persisted state is found again: the path of a state node in a tree leads to it in the state
document of the tree, and there is no such document exactly if nothing is state. -/
theorem lookup_stateDocument {tree : Node} (apart : tree.everywhere (Node.tellsApart defaultKey) = true)
    (named : tree.everywhere (Node.hasNamedEntries defaultKey) = true) :
    (∀ steps target, tree.Walk defaultKey steps target → target.annotations.state = true →
      (∀ d ∈ steps, d.container.annotations.state = false) →
      (tree.extractState? defaultKey).bind (·.lookup? (steps.map Descent.segment) defaultKey) =
        some { target with annotations := { target.annotations with state := false } }) ∧
    (tree.extractState? defaultKey = none ↔ tree.everywhere (!·.annotations.state) = true) := by
  refine ⟨fun steps target walk flagged unflagged => ?_, tree.extractState?_eq_none_iff⟩
  obtain ⟨document, whole, found⟩ := walk.lookup?_extractState? apart named flagged unflagged
  rw [whole, Option.bind_some, found]

end

/-- A number that belongs to the state. -/
def stateNumber (n : Int64) : Node := ⟨.int n, { state := true }, "t"⟩

/-- An entry without state. -/
def idleEntry (key identity : String) : Node :=
  .plain (.map [(key, .plain (.string identity) "t"), ("z", .plain .nil "t")]) "t"

/-- A list of entries under their own key field. One entry has state in a list that is mixed. -/
def serverTree : Node :=
  .plain (.map [("servers", ⟨.list [
    idleEntry "id" "a",
    .plain (.map [("id", .plain (.string "b") "t"),
      ("jobs", .plain (.list [idleEntry "name" "x", .plain (.int 5) "t", stateNumber 7,
        .plain (.map [("name", .plain (.string "y") "t"), ("runs", stateNumber 8)]) "t",
        idleEntry "name" "z"]) "t")]) "t",
    idleEntry "id" "c"], { keyName := some "id" }, "t"⟩)]) "t"

/-- The state in an entry without identity, and that in an entry with one. -/
theorem lookup_serverState :
    ∃ steps target steps' target', serverTree.Walk "name" steps target ∧
      steps.map Descent.segment = ["servers", "b", "jobs", "[2]"] ∧
      target.value.asInt? = some 7 ∧
      (serverTree.extractState? "name").bind (·.lookup? ["servers", "b", "jobs", "[2]"] "name") =
        some { target with annotations := { target.annotations with state := false } } ∧
      serverTree.Walk "name" steps' target' ∧
      steps'.map Descent.segment = ["servers", "b", "jobs", "y", "runs"] ∧
      target'.value.asInt? = some 8 ∧
      (serverTree.extractState? "name").bind (·.lookup? ["servers", "b", "jobs", "y", "runs"] "name") =
        some { target' with annotations := { target'.annotations with state := false } } ∧
      serverTree.extractState? "name" ≠ none := by
  have result := @lookup_stateDocument "name" serverTree (by decide +kernel) (by decide +kernel)
  have unkeyed : serverTree.Walk "name" _ _ :=
    .field 0 rfl rfl (.entry 1 rfl rfl (.field 1 rfl rfl (.entry 2 rfl rfl (.here _))))
  have keyed : serverTree.Walk "name" _ _ :=
    .field 0 rfl rfl (.entry 1 rfl rfl (.field 1 rfl rfl (.entry 3 rfl rfl
      (.field 1 rfl rfl (.here _)))))
  refine ⟨_, _, _, _, unkeyed, rfl, by decide +kernel, ?_, keyed, rfl, by decide +kernel, ?_, ?_⟩
  · exact result.1 _ _ unkeyed rfl (by decide +kernel)
  · exact result.1 _ _ keyed rfl (by decide +kernel)
  · exact fun missing => absurd (result.2.mp missing) (by decide +kernel)

end Cascade
