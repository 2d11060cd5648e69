import Mathlib.Data.List.Basic
import Cascade.Proofs.ParserLaws
import Cascade.Proofs.PlainData
import Cascade.Proofs.Visits

/-!
# Paths of entries

A pass that goes down a tree names every field by its key, and every list entry by its identity or,
if it has none, by its index. A lookup reads such a path again, and where a segment reads as an
index, it takes it as one. So the path of a node leads back to the node as long as no identity on
the way reads as the index of another entry.

## Main definitions

* `Node.Walk`: the way down to a node, with the segments that a pass gives.
* `Node.everywhere`: a test that holds of all nodes of a tree.
* `Node.tellsApart`: keys and identities are distinct.
* `Descent.IsAddressed`: the segment is not the index of another entry.
* `Node.route?`: the positions that a lookup goes through.

## Main statements

* `Path.parseIndex?_indexSegment`: the segment of an index is read as the index.
* `Node.Walk.route?_eq_iff`, `Node.Walk.lookup?_eq`: where the path of a node leads.
* `lookup_entryPath`: what that means for names in entries.
-/

namespace Cascade

/-! ### Segments of indices -/

/-- A number in brackets is an index. -/
theorem Path.parseIndex?_indexSegment {index : Nat} (small : index < 0x8000000000000000) :
    parseIndex? (indexSegment index) = some (index : Int) := by
  have digits : (indexSegment index).toList = '[' :: (Nat.toDigits 10 index ++ [']']) := by
    rw [indexSegment, String.toList_append, String.toList_append, Nat.toString_eq_repr,
      Nat.toList_repr]
    rfl
  have inside : unbracketed (indexSegment index).toList = Nat.toDigits 10 index := by
    rw [digits, unbracketed, List.reverse_append]
    exact List.reverse_reverse _
  have areDigits : (Nat.toDigits 10 index).all Char.isDigit = true :=
    List.all_eq_true.mpr fun c member =>
      Nat.isDigit_of_mem_toDigits (by decide) (by decide) member
  have unsigned : ∀ rest, Nat.toDigits 10 index ≠ '-' :: rest := by
    intro rest same
    rw [same, List.all_cons, Bool.and_eq_true] at areDigits
    exact absurd areDigits.1 (by decide)
  have notEmpty : (Nat.toDigits 10 index).isEmpty = false :=
    List.isEmpty_eq_false_iff.mpr Nat.toDigits_ne_nil
  have fits : FitsInt index := by
    unfold FitsInt
    omega
  unfold parseIndex?
  simp only [inside]
  split
  · next refused =>
    rw [notEmpty, areDigits] at refused
    cases refused
  · rw [naturalOfDigits_toDigits]
    exact if_pos fits

/-! ### Trees in which everything can be told apart -/

section

variable (test : Node → Bool)

mutual

/-- A test holds of all nodes of the tree. -/
def Node.everywhere : Node → Bool
  | node@⟨value, _, _⟩ => test node && Value.everywhere value

/-- A test holds of all nodes of the value. -/
def Value.everywhere : Value → Bool
  | .list items => everywhereInItems items
  | .map fields => everywhereInFields fields
  | _ => true

/-- A test holds of all nodes of the items. -/
def everywhereInItems : List Node → Bool
  | [] => true
  | item :: rest => item.everywhere && everywhereInItems rest

/-- A test holds of all nodes of the fields. -/
def everywhereInFields : List (String × Node) → Bool
  | [] => true
  | (_, child) :: rest => child.everywhere && everywhereInFields rest

end

end

section

variable {test : Node → Bool}

theorem everywhereInItems_iff {items : List Node} :
    everywhereInItems test items = true ↔ ∀ item ∈ items, item.everywhere test = true := by
  induction items with
  | nil => simp [everywhereInItems]
  | cons item rest ih => simp [everywhereInItems, ih]

theorem everywhereInFields_iff {fields : Fields Node} :
    everywhereInFields test fields = true ↔
      ∀ field ∈ fields, field.2.everywhere test = true := by
  induction fields with
  | nil => simp [everywhereInFields]
  | cons field rest ih => simp [everywhereInFields, ih]

namespace Node

variable {node : Node}

theorem test_of_everywhere (holds : node.everywhere test = true) : test node = true := by
  obtain ⟨value, annotations, source⟩ := node
  rw [everywhere, Bool.and_eq_true] at holds
  exact holds.1

theorem everywhere_list_iff {items : List Node} (shape : node.value = .list items) :
    node.everywhere test = true ↔
      test node = true ∧ ∀ item ∈ items, item.everywhere test = true := by
  obtain ⟨value, annotations, source⟩ := node
  cases shape
  rw [everywhere, Bool.and_eq_true, Value.everywhere, everywhereInItems_iff]

theorem everywhere_map_iff {fields : Fields Node} (shape : node.value = .map fields) :
    node.everywhere test = true ↔
      test node = true ∧ ∀ field ∈ fields, field.2.everywhere test = true := by
  obtain ⟨value, annotations, source⟩ := node
  cases shape
  rw [everywhere, Bool.and_eq_true, Value.everywhere, everywhereInFields_iff]

end Node

end

/-- No two fields of a map have one key, and no two entries of a list have one identity. Indices
are numbers of 64 bits, which bounds the length of a list. -/
def Node.tellsApart (defaultKey : String) (node : Node) : Bool :=
  match node.value with
  | .map fields => decide (Fields.keys fields).Nodup
  | .list items =>
    decide (items.length ≤ 0x8000000000000000) &&
      decide (items.filterMap (·.identity? (node.keyName defaultKey))).Nodup
  | _ => true

/-! ### The way down -/

/-- A step from a container to the child at a position, under the segment that a pass gives the
child. -/
structure Descent where
  container : Node
  segment : String
  position : Nat

section

variable (defaultKey : String)

/-- The way from a node down to a node in it: into maps by the keys of fields, into lists by the
segments of entries. -/
inductive Node.Walk : Node → List Descent → Node → Prop
  | here (node : Node) : Node.Walk node [] node
  | field {node child target : Node} {fields : Fields Node} {key : String} {steps : List Descent}
      (position : Nat) (shape : node.value = .map fields)
      (found : fields[position]? = some (key, child)) (onward : Node.Walk child steps target) :
      Node.Walk node (⟨node, key, position⟩ :: steps) target
  | entry {node child target : Node} {items : List Node} {steps : List Descent} (position : Nat)
      (shape : node.value = .list items) (found : items[position]? = some child)
      (onward : Node.Walk child steps target) :
      Node.Walk node (⟨node, child.entrySegment position (node.keyName defaultKey), position⟩ :: steps)
        target

/-- The position of the child that a segment is read as. -/
def Node.stepPosition? (node : Node) (segment : String) : Option Nat :=
  match node.value with
  | .map fields => fields.findIdx? fun field => field.1 == segment
  | .list items => Path.position? items segment (node.keyName defaultKey)
  | _ => none

/-- The child at a position. -/
def Node.childAt? (node : Node) (position : Nat) : Option Node :=
  match node.value with
  | .map fields => fields[position]?.map Prod.snd
  | .list items => items[position]?
  | _ => none

/-- The positions of the children that a path goes through. -/
def Node.route? : Node → List String → Option (List Nat)
  | _, [] => some []
  | node, segment :: rest => do
    let position ← node.stepPosition? defaultKey segment
    let child ← node.childAt? position
    let later ← child.route? rest
    return position :: later

end

/-- The segment is not read as the index of another entry. -/
def Descent.IsAddressed (d : Descent) : Prop :=
  ∀ items, d.container.value = .list items → ∀ index, Path.parseIndex? d.segment = some index →
    Path.resolveIndex? items.length index = some d.position

theorem Descent.isAddressed_iff {d : Descent} {items : List Node}
    (shape : d.container.value = .list items) :
    d.IsAddressed ↔ ∀ index, Path.parseIndex? d.segment = some index →
      Path.resolveIndex? items.length index = some d.position := by
  constructor
  · exact fun addressed => addressed items shape
  · intro addressed items' shape'
    cases shape.symm.trans shape'
    exact addressed

/-- A lookup goes to the children at the positions that the segments are read as. -/
theorem Node.step?_eq_bind (node : Node) (segment defaultKey : String) :
    node.step? segment defaultKey =
      (node.stepPosition? defaultKey segment).bind node.childAt? := by
  obtain ⟨value, annotations, source⟩ := node
  cases value with
  | map fields =>
    change Fields.find? fields segment = (fields.findIdx? fun field => field.1 == segment).bind
      fun position => fields[position]?.map Prod.snd
    induction fields with
    | nil => rfl
    | cons field rest ih =>
      obtain ⟨key, child⟩ := field
      rw [Fields.find?_cons, List.findIdx?_cons]
      by_cases here : key = segment
      · rw [if_pos here, if_pos (beq_iff_eq.mpr here)]
        rfl
      · rw [if_neg here, if_neg (by simpa using here), ih, Option.bind_map]
        rfl
  | list items => exact Path.stepBy?_list items annotations source segment _
  | _ => rfl

theorem Node.lookup?_eq_bind_route? (root : Node) (path : List String) (defaultKey : String) :
    root.lookup? path defaultKey =
      (root.route? defaultKey path).bind (·.foldlM Node.childAt? root) := by
  induction path generalizing root with
  | nil => rfl
  | cons segment rest ih =>
    rw [lookup?_cons, step?_eq_bind, route?]
    cases root.stepPosition? defaultKey segment with
    | none => rfl
    | some position =>
      cases child : root.childAt? position with
      | none => simp [child]
      | some child' =>
        rw [Option.bind_some, child, Option.bind_some, ih]
        cases later : child'.route? defaultKey rest with
        | none => simp [child, later]
        | some positions => simp [child, later]

theorem Node.route?_cons_iff {node : Node} {segment defaultKey : String} {rest : List String}
    {position : Nat} {later : List Nat} :
    node.route? defaultKey (segment :: rest) = some (position :: later) ↔
      node.stepPosition? defaultKey segment = some position ∧
        ∃ child, node.childAt? position = some child ∧ child.route? defaultKey rest = some later := by
  rw [route?]
  simp only [Option.bind_eq_bind, Option.bind_eq_some_iff, Option.pure_def, Option.some.injEq,
    List.cons.injEq]
  constructor
  · rintro ⟨_, step, child, stands, _, onward, rfl, rfl⟩
    exact ⟨step, child, stands, onward⟩
  · rintro ⟨step, child, stands, onward⟩
    exact ⟨position, step, child, stands, later, onward, rfl, rfl⟩

/-! ### Where a path leads -/

section

variable {node child : Node} {position : Nat}

theorem Node.childAt?_of_field {fields : Fields Node} {key : String}
    (shape : node.value = .map fields) (found : fields[position]? = some (key, child)) :
    node.childAt? position = some child := by
  rw [childAt?, shape]
  exact congrArg (Option.map Prod.snd) found

theorem Node.childAt?_of_entry {items : List Node} (shape : node.value = .list items)
    (found : items[position]? = some child) : node.childAt? position = some child := by
  rw [childAt?, shape]
  exact found

end

theorem nodup_filterMap_cons {α β : Type} {name? : α → Option β} {first : α} {rest : List α}
    (distinct : ((first :: rest).filterMap name?).Nodup) :
    (rest.filterMap name?).Nodup ∧ ∀ item ∈ rest, ∀ name, name? item = some name →
      name? first ≠ some name := by
  rw [List.filterMap_cons] at distinct
  cases named : name? first with
  | none =>
    rw [named] at distinct
    exact ⟨distinct, fun _ _ _ _ => (Option.some_ne_none _).symm⟩
  | some own =>
    rw [named] at distinct
    obtain ⟨fresh, apart⟩ := List.nodup_cons.mp distinct
    refine ⟨apart, ?_⟩
    rintro item member name other ⟨⟩
    exact fresh (List.mem_filterMap.mpr ⟨item, member, other⟩)

/-- Of items with distinct names, the first one of a name is the one that has it. -/
theorem findIdx?_of_nodup {α : Type} {name? : α → Option String} {items : List α}
    (distinct : (items.filterMap name?).Nodup) {position : Nat} {item : α} {name : String}
    (found : items[position]? = some item) (named : name? item = some name) :
    (items.findIdx? fun other => name? other == some name) = some position := by
  induction items generalizing position with
  | nil => cases found
  | cons first rest ih =>
    rw [List.findIdx?_cons]
    cases position with
    | zero =>
      cases found
      rw [if_pos (beq_iff_eq.mpr named)]
    | succ position =>
      have later : rest[position]? = some item := found
      obtain ⟨apart, differs⟩ := nodup_filterMap_cons distinct
      rw [if_neg (by simpa using differs item (List.mem_of_getElem? later) name named),
        ih apart later]
      rfl

/-- The position of a field is that of its key. -/
theorem Fields.findIdx?_of_keys {α : Type} {fields : Fields α} (distinct : (keys fields).Nodup)
    {position : Nat} {key : String} {value : α} (found : fields[position]? = some (key, value)) :
    (fields.findIdx? fun field => field.1 == key) = some position := by
  have names : fields.filterMap (fun field => some field.1) = keys fields :=
    congrFun List.filterMap_eq_map' fields
  have named := @findIdx?_of_nodup _ (fun field => some field.1) fields (by rwa [names]) _ _ key found
    rfl
  simpa using named

theorem Path.resolveIndex?_of_lt {length position : Nat} (inside : position < length) :
    resolveIndex? length position = some position := by
  have notNegative : ¬(position : Int) < 0 := by omega
  unfold resolveIndex?
  simp only [if_neg notNegative]
  rw [if_pos ⟨by omega, by omega⟩, Int.toNat_natCast]

/-- The segment of an entry is read as the position of the entry, unless it is the index of another
one. -/
theorem Path.position?_entrySegment_iff {items : List Node} {key : String} {entry : Node}
    {position : Nat} (short : items.length ≤ 0x8000000000000000)
    (distinct : (items.filterMap (·.identity? key)).Nodup)
    (found : items[position]? = some entry) :
    position? items (entry.entrySegment position key) key = some position ↔
      ∀ index, parseIndex? (entry.entrySegment position key) = some index →
        resolveIndex? items.length index = some position := by
  have inside : position < items.length := (List.getElem?_eq_some_iff.mp found).1
  unfold position?
  cases parsed : parseIndex? (entry.entrySegment position key) with
  | some index => simp
  | none =>
    cases own : entry.identity? key with
    | none =>
      -- an entry without an identity has its index
      rw [Node.entrySegment, own, Option.getD_none, parseIndex?_indexSegment (by omega)] at parsed
      cases parsed
    | some name =>
      have segment : entry.entrySegment position key = name := by
        rw [Node.entrySegment, own, Option.getD_some]
      simp [segment, findIdx?_of_nodup distinct found own]

namespace Node.Walk

variable {defaultKey : String} {root target : Node} {steps : List Descent}

/-- A path is read as the positions of the way, exactly if no segment is the index of another
entry. -/
theorem route?_eq_iff (apart : root.everywhere (tellsApart defaultKey) = true)
    (walk : root.Walk defaultKey steps target) :
    root.route? defaultKey (steps.map Descent.segment) = some (steps.map Descent.position) ↔
      ∀ d ∈ steps, d.IsAddressed := by
  induction walk with
  | here node => simp [route?]
  | @field node child target fields key steps position shape found onward ih =>
    obtain ⟨here, below⟩ := (everywhere_map_iff shape).mp apart
    rw [tellsApart, shape, decide_eq_true_eq] at here
    have step : node.stepPosition? defaultKey key = some position := by
      rw [stepPosition?, shape]
      exact Fields.findIdx?_of_keys here found
    have stands := childAt?_of_field shape found
    have addressed : (Descent.mk node key position).IsAddressed := by
      intro items isList
      rw [shape] at isList
      cases isList
    rw [List.map_cons, List.map_cons, route?_cons_iff, List.forall_mem_cons,
      ← ih (below _ (List.mem_of_getElem? found))]
    simp [step, stands, addressed]
  | @entry node child target items steps position shape found onward ih =>
    obtain ⟨here, below⟩ := (everywhere_list_iff shape).mp apart
    rw [tellsApart, shape, Bool.and_eq_true, decide_eq_true_eq, decide_eq_true_eq] at here
    have step : node.stepPosition? defaultKey
        (child.entrySegment position (node.keyName defaultKey)) = some position ↔
          (Descent.mk node (child.entrySegment position (node.keyName defaultKey))
            position).IsAddressed := by
      rw [stepPosition?, shape, Descent.isAddressed_iff shape]
      exact Path.position?_entrySegment_iff here.1 here.2 found
    have stands := childAt?_of_entry shape found
    rw [List.map_cons, List.map_cons, route?_cons_iff, List.forall_mem_cons,
      ← ih (below _ (List.mem_of_getElem? found)), step]
    simp [stands]

/-- The positions of the way lead to its end. -/
theorem foldlM_childAt? (walk : root.Walk defaultKey steps target) :
    (steps.map Descent.position).foldlM childAt? root = some target := by
  induction walk with
  | here node => rfl
  | @field node child target fields key steps position shape found onward ih =>
    have stands := childAt?_of_field shape found
    rw [List.map_cons, List.foldlM_cons, stands]
    exact ih
  | @entry node child target items steps position shape found onward ih =>
    have stands := childAt?_of_entry shape found
    rw [List.map_cons, List.foldlM_cons, stands]
    exact ih

/-- The path of a node leads back to the node. -/
theorem lookup?_eq (apart : root.everywhere (tellsApart defaultKey) = true)
    (walk : root.Walk defaultKey steps target) (addressed : ∀ d ∈ steps, d.IsAddressed) :
    root.lookup? (steps.map Descent.segment) defaultKey = some target := by
  rw [lookup?_eq_bind_route?, (walk.route?_eq_iff apart).mpr addressed, Option.bind_some,
    walk.foldlM_childAt?]

/-- The way to a container on the way. -/
theorem take (walk : root.Walk defaultKey steps target) {depth : Nat} {d : Descent}
    (found : steps[depth]? = some d) : root.Walk defaultKey (steps.take depth) d.container := by
  induction walk generalizing depth with
  | here node => cases found
  | field position shape stands onward ih =>
    cases depth with
    | zero =>
      cases found
      exact .here _
    | succ depth => exact .field position shape stands (ih found)
  | entry position shape stands onward ih =>
    cases depth with
    | zero =>
      cases found
      exact .here _
    | succ depth => exact .entry position shape stands (ih found)

/-- A name is searched in the containers on the way, from the inside out. -/
theorem findEnclosing?_eq (apart : root.everywhere (tellsApart defaultKey) = true)
    (walk : root.Walk defaultKey steps target) (addressed : ∀ d ∈ steps, d.IsAddressed)
    (name : String) :
    Reference.findEnclosing? defaultKey root (steps.map Descent.segment) name =
      steps.reverse.findSome? (·.container.field? name) := by
  have containers : ∀ depth d, steps[depth]? = some d →
      root.lookup? ((steps.map Descent.segment).take depth) defaultKey = some d.container := by
    intro depth d found
    rw [← List.map_take]
    exact (walk.take found).lookup?_eq apart fun d member => addressed d (List.mem_of_mem_take member)
  have columns : ((List.range (steps.map Descent.segment).length).map fun depth =>
      (root.lookup? ((steps.map Descent.segment).take depth) defaultKey).bind (·.field? name)) =
      steps.map (·.container.field? name) := by
    refine List.ext_getElem? fun depth => ?_
    rw [List.getElem?_map, List.getElem?_map, List.length_map]
    cases found : steps[depth]? with
    | none =>
      rw [List.getElem?_eq_none (by simpa using List.getElem?_eq_none_iff.mp found)]
      rfl
    | some d =>
      rw [List.getElem?_range (List.getElem?_eq_some_iff.mp found).1, Option.map_some,
        containers depth d found]
      rfl
  rw [Reference.findEnclosing?, ← Function.id_comp fun depth => _, ← List.findSome?_map,
    List.map_reverse, columns, ← List.map_reverse, List.findSome?_map]
  rfl

end Node.Walk

/-- The path of a node is read as the positions of the way to it, exactly if no identity on the way
is the index of another entry. Then it leads back to the node, and a name is searched in the
containers of the node and in no others. -/
theorem lookup_entryPath {defaultKey : String} {root target : Node} {steps : List Descent}
    (apart : root.everywhere (Node.tellsApart defaultKey) = true)
    (walk : root.Walk defaultKey steps target) :
    (root.route? defaultKey (steps.map Descent.segment) = some (steps.map Descent.position) ↔
      ∀ d ∈ steps, d.IsAddressed) ∧
    ((∀ d ∈ steps, d.IsAddressed) →
      root.lookup? (steps.map Descent.segment) defaultKey = some target ∧
      ∀ name, Reference.findEnclosing? defaultKey root (steps.map Descent.segment) name =
        steps.reverse.findSome? (·.container.field? name)) :=
  ⟨walk.route?_eq_iff apart, fun addressed =>
    ⟨walk.lookup?_eq apart addressed, walk.findEnclosing?_eq apart addressed⟩⟩

/-- An entry with a letter, and with a name in it that means this letter. -/
def letterEntry (name letter : String) : Node :=
  .plain (.map [("name", .plain (.string name) "t"), ("v", .plain (.string letter) "t"),
    ("w", .plain (.string "(( v ))") "t")]) "t"

/-- A document with one list. -/
def letterList (entries : List Node) : Node := .plain (.map [("l", .plain (.list entries) "t")]) "t"

/-- The text of a field. -/
def Node.fieldText? (node : Node) (key : String) : Option String :=
  (node.field? key).bind (·.value.asString?)

/-- The second entry has its own index as its identity. -/
def letterPair : Node := letterList [letterEntry "x" "a", letterEntry "1" "b"]

theorem lookup_letterPair :
    ∃ steps target, letterPair.Walk "name" steps target ∧
      steps.map Descent.segment = ["l", "1", "w"] ∧ target.value.asString? = some "(( v ))" ∧
      letterPair.lookup? ["l", "1", "w"] "name" = some target ∧
      (Reference.findEnclosing? "name" letterPair ["l", "1", "w"] "v").bind (·.value.asString?) =
        some "b" := by
  have walk : letterPair.Walk "name" _ _ :=
    .field 0 rfl rfl (.entry 1 rfl rfl (.field 2 rfl rfl (.here _)))
  have result := lookup_entryPath (by decide +kernel) walk
  obtain ⟨found, names⟩ := result.2 (result.1.mp (by decide +kernel))
  refine ⟨_, _, walk, rfl, by decide +kernel, found, ?_⟩
  refine (congrArg (·.bind (·.value.asString?)) (names "v")).trans ?_
  decide +kernel

/-- A document in which each of two entries has the index of the other one as its identity. -/
def swappedEntries : Node := letterList [letterEntry "1" "a", letterEntry "0" "b"]

/-- The letters of the entries of a list, and the letters that the names in them mean. -/
def cascadedLetters (template : Node) : Option (List (Option String × Option String)) := do
  let (answer, _) ← (Engine.standard.cascade template [] none).run {}
  let outcome ← answer.toOption
  let list ← outcome.document.field? "l"
  let entries ← list.value.asList?
  return entries.map fun entry => (entry.fieldText? "v", entry.fieldText? "w")

/-- The path of each entry leads to the other one, and so do the names in it. -/
theorem lookup_swappedEntries :
    swappedEntries.everywhere (Node.tellsApart "name") = true ∧
    (∃ steps target, swappedEntries.Walk "name" steps target ∧ target.fieldText? "v" = some "a" ∧
      (swappedEntries.lookup? (steps.map Descent.segment) "name").bind (·.fieldText? "v") =
        some "b") ∧
    cascadedLetters swappedEntries = some [(some "a", some "b"), (some "b", some "a")] :=
  ⟨by decide +kernel,
    ⟨_, _, .field 0 rfl rfl (.entry 0 rfl rfl (.here _)), by decide +kernel, by decide +kernel⟩,
    by decide +kernel⟩

end Cascade
