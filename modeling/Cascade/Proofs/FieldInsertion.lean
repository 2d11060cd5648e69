import Cascade.Proofs.FilledTemplates

/-!
# Setting a field below a root

A walk that sets a field and a walk that reads read the segments of their paths by themselves. They
agree on what a segment means: the field of a map, or the position of an entry of a list, which a
segment names by an index counted from either end, with or without brackets. On children at such
places, reading and setting are a lens, and the laws for paths follow step by step.

The identity of an entry is another matter. Setting does not follow it, and setting the key field of
an entry changes which entry it names, so the laws are about paths that name entries by indices.

## Main definitions

* `ChildPlace`, `Node.placeOf`: a child of a container, and which one a segment means.
* `Node.get?`, `Node.set`: the child at a place, and the container with another one there.
* `Node.places`: the places that a path goes through, indices turned into positions.
* `Node.overwrite`: setting a field in place, on a tree that is written back on the way up.

## Main statements

* `Node.get?_set_self`, `Node.get?_set_of_ne`, `Node.set_get?`: the laws at one container.
* `Node.insertAt?_cons`: setting a field below a child sets the child.
* `Node.insertAt?_lens`: the laws for paths.
-/

namespace Cascade

/-- A child of a container: the field of a map or the entry of a list. -/
inductive ChildPlace where
  | field (key : String)
  | entry (position : Nat)
deriving DecidableEq

namespace Node

/-! ### The children of a container -/

/-- The child that a segment means. A segment that is no index of the list is left as it is, and no
entry stands there. -/
def placeOf (node : Node) (segment : String) : ChildPlace :=
  match node.value with
  | .list items =>
    match Path.entryIndex? items.length segment with
    | some position => .entry position
    | none => .field segment
  | _ => .field segment

/-- The child at a place. -/
def get? (node : Node) (place : ChildPlace) : Option Node :=
  match node.value, place with
  | .map fields, .field key => Fields.find? fields key
  | .list items, .entry position => items[position]?
  | _, _ => none

/-- The container with another child at a place. -/
def set (node : Node) (place : ChildPlace) (child : Node) : Node :=
  match node.value, place with
  | .map fields, .field key => node.withValue (.map (Fields.insert key child fields))
  | .list items, .entry position => node.withValue (.list (items.set position child))
  | _, _ => node

/-- If the container is a list, the segment is an index. -/
def readsIndex (node : Node) (segment : String) : Bool :=
  node.value.asList?.isNone || (Path.parseIndex? segment).isSome

section

variable {node child : Node} {place other : ChildPlace} {segment key : String}

theorem placeOf_of_isMap (isMap : node.isMap = true) : node.placeOf segment = .field segment := by
  obtain ⟨fields, shape⟩ := isMap_iff.mp isMap
  rw [placeOf, shape]

/-- Reading what was set. -/
theorem get?_set_self (known : (node.get? place).isSome) :
    (node.set place child).get? place = some child := by
  obtain ⟨value, annotations, source⟩ := node
  cases value with
  | map fields =>
    cases place with
    | field key => exact (Fields.find?_insert key key child fields).trans (if_pos rfl)
    | entry position => cases known
  | list items =>
    cases place with
    | field key => cases known
    | entry position =>
      have inside : position < items.length := List.getElem?_eq_some_iff.mp
        (Option.isSome_iff_exists.mp known).choose_spec |>.1
      exact List.getElem?_set_self inside
  | _ => cases known

/-- A map takes a field that it lacks. -/
theorem get?_set_field (isMap : node.isMap = true) :
    (node.set (.field key) child).get? (.field key) = some child := by
  obtain ⟨value, annotations, source⟩ := node
  obtain ⟨fields, rfl⟩ := isMap_iff.mp isMap
  exact (Fields.find?_insert key key child fields).trans (if_pos rfl)

/-- The other children stay. -/
theorem get?_set_of_ne (differs : place ≠ other) :
    (node.set place child).get? other = node.get? other := by
  obtain ⟨value, annotations, source⟩ := node
  cases value with
  | map fields =>
    cases place with
    | entry position => rfl
    | field key =>
      cases other with
      | entry position => rfl
      | field name =>
        have apart : key ≠ name := fun same => differs (congrArg ChildPlace.field same)
        exact (Fields.find?_insert key name child fields).trans (if_neg apart)
  | list items =>
    cases place with
    | field key => rfl
    | entry position =>
      cases other with
      | field name => rfl
      | entry index =>
        have apart : position ≠ index := fun same => differs (congrArg ChildPlace.entry same)
        exact List.getElem?_set_ne apart
  | _ => rfl

/-- Setting a child to what it is changes nothing. -/
theorem set_get? (ordered : node.Ordered) (known : node.get? place = some child) :
    node.set place child = node := by
  cases ordered with
  | @map fields annotations source sorted below =>
    cases place with
    | entry position => cases known
    | field key =>
      show Node.mk (.map (Fields.insert key child fields)) annotations source = _
      rw [sorted.insert_of_find? known]
  | @list items annotations source entries =>
    cases place with
    | field key => cases known
    | entry position =>
      obtain ⟨inside, rfl⟩ := List.getElem?_eq_some_iff.mp known
      show Node.mk (.list (items.set position items[position])) annotations source = _
      rw [List.set_getElem_self]
  | @leaf value annotations source notList notMap =>
    cases value with
    | map fields => exact absurd rfl (notMap fields)
    | list items => exact absurd rfl (notList items)
    | _ => rfl

/-- What segments mean does not depend on the children. -/
theorem placeOf_set : (node.set place child).placeOf segment = node.placeOf segment := by
  obtain ⟨value, annotations, source⟩ := node
  cases value with
  | list items =>
    cases place with
    | field key => rfl
    | entry position =>
      change (match Path.entryIndex? (items.set position child).length segment with
        | some position => ChildPlace.entry position
        | none => .field segment) = _
      rw [List.length_set]
      rfl
  | map fields => cases place <;> rfl
  | _ => rfl

/-- A segment that leads to a child of a list is an index. -/
theorem readsIndex_of_get? (known : node.get? (node.placeOf segment) = some child) :
    node.readsIndex segment = true := by
  obtain ⟨contents, annotations, source⟩ := node
  cases contents with
  | list items =>
    change (Path.parseIndex? segment).isSome = true
    cases read : Path.parseIndex? segment with
    | some index => rfl
    | none =>
      unfold placeOf Path.entryIndex? at known
      simp only [read, Option.bind_none] at known
      cases known
  | _ => rfl

theorem readsIndex_set : (node.set place child).readsIndex segment = node.readsIndex segment := by
  obtain ⟨value, annotations, source⟩ := node
  cases value <;> cases place <;> rfl

theorem Ordered.get? (ordered : node.Ordered) (known : node.get? place = some child) :
    child.Ordered := by
  cases ordered with
  | map sorted below =>
    cases place with
    | entry position => cases known
    | field key => exact below _ (Fields.mem_of_find? known)
  | list entries =>
    cases place with
    | field key => cases known
    | entry position => exact entries _ (List.mem_of_getElem? known)
  | @leaf value _ _ notList notMap =>
    cases value with
    | map fields => exact absurd rfl (notMap fields)
    | list items => exact absurd rfl (notList items)
    | _ => cases known

/-! ### Steps of the two walks -/

variable {value : Node} {rest : List String}

/-- A step that reads an index leads to the child that the segment means. -/
theorem step?_eq_get? {defaultKey : String} (index : node.readsIndex segment = true) :
    node.step? segment defaultKey = node.get? (node.placeOf segment) := by
  obtain ⟨contents, annotations, source⟩ := node
  cases contents with
  | list items =>
    obtain ⟨number, read⟩ := Option.isSome_iff_exists.mp index
    rw [step?_list_of_index read]
    unfold placeOf Path.entryIndex?
    dsimp only
    cases (Path.parseIndex? segment).bind (Path.resolveIndex? items.length) <;> rfl
  | _ => rfl

/-- Setting a field below a child sets the child. -/
theorem insertAt?_cons (further : rest ≠ []) :
    node.insertAt? (segment :: rest) value = (node.get? (node.placeOf segment)).bind fun child =>
      (child.insertAt? rest value).map (node.set (node.placeOf segment)) := by
  obtain ⟨contents, annotations, source⟩ := node
  cases contents with
  | map fields => exact insertAt?_field further
  | list items =>
    rw [insertAt?_entry further]
    unfold placeOf
    dsimp only
    cases Path.entryIndex? items.length segment <;> rfl
  | _ => exact insertAt?_leaf (by simp) (by simp) _

theorem insertAt?_singleton_iff {tree : Node} :
    node.insertAt? [key] value = some tree ↔
      node.isMap = true ∧ tree = node.set (.field key) value := by
  obtain ⟨contents, annotations, source⟩ := node
  cases contents with
  | map fields =>
    change some _ = some tree ↔ _
    rw [Option.some.injEq]
    exact ⟨fun same => ⟨rfl, same.symm⟩, fun same => same.2.symm⟩
  | _ =>
    rw [insertAt?_singleton_of_not_map (by simp)]
    simp [isMap]

end

/-! ### Paths -/

/-- The places that a path goes through, as far as the tree goes. -/
def places (root : Node) : List String → List ChildPlace
  | [] => []
  | segment :: rest =>
    root.placeOf segment ::
      match root.get? (root.placeOf segment) with
      | some child => child.places rest
      | none => rest.map .field

/-- All steps of the path into lists are by index. -/
def readsIndices (root : Node) : List String → Bool
  | [] => true
  | segment :: rest =>
    root.readsIndex segment &&
      match root.get? (root.placeOf segment) with
      | some child => child.readsIndices rest
      | none => true

/-- Sets a field below the root in place. The children on the way are written back, whether or not
the field was set. -/
def overwrite (root : Node) (path : List String) (value : Node) : Bool × Node :=
  match path with
  | [] => (false, root)
  | [last] => if root.isMap then (true, root.set (.field last) value) else (false, root)
  | segment :: next :: rest =>
    match root.get? (root.placeOf segment) with
    | some child =>
      let written := child.overwrite (next :: rest) value
      (written.1, root.set (root.placeOf segment) written.2)
    | none => (false, root)

section

variable {root value tree : Node} {path other : List String} {defaultKey : String}

/-- Writing in place sets the field or leaves the tree as it is. -/
theorem overwrite_eq (ordered : root.Ordered) (path : List String) (value : Node) :
    root.overwrite path value =
      ((root.insertAt? path value).isSome, (root.insertAt? path value).getD root) := by
  induction path generalizing root with
  | nil => rfl
  | cons segment rest ih =>
    cases rest with
    | nil =>
      unfold overwrite
      cases made : root.insertAt? [segment] value with
      | some tree =>
        obtain ⟨isMap, rfl⟩ := insertAt?_singleton_iff.mp made
        rw [if_pos isMap]
        rfl
      | none =>
        rw [if_neg]
        · rfl
        · intro isMap
          rw [insertAt?_singleton_iff.mpr ⟨isMap, rfl⟩] at made
          cases made
    | cons next rest =>
      rw [overwrite, insertAt?_cons (List.cons_ne_nil _ _)]
      cases known : root.get? (root.placeOf segment) with
      | none => rfl
      | some child =>
        dsimp only [Option.bind_some]
        rw [ih (ordered.get? known)]
        cases child.insertAt? (next :: rest) value with
        | some new => rfl
        | none => exact congrArg (Prod.mk false) (set_get? ordered known)

theorem places_singleton (segment : String) : root.places [segment] = [root.placeOf segment] := by
  rw [places]
  cases root.get? (root.placeOf segment) <;> rfl

section

variable {segment : String} {child : Node} {rest : List String}
  (known : root.get? (root.placeOf segment) = some child)

include known

theorem places_cons :
    root.places (segment :: rest) = root.placeOf segment :: child.places rest := by
  rw [places, known]

theorem readsIndices_cons :
    root.readsIndices (segment :: rest) = child.readsIndices rest := by
  rw [readsIndices, known, readsIndex_of_get? known, Bool.true_and]

theorem lookup?_cons_of_get? :
    root.lookup? (segment :: rest) defaultKey = child.lookup? rest defaultKey := by
  rw [lookup?_cons, step?_eq_get? (readsIndex_of_get? known), known, Option.bind_some]

end

/-- Setting a field on the way down a path sets the child that the path goes through. -/
theorem insertAt?_cons_iff {segment next : String} {rest : List String} :
    root.insertAt? (segment :: next :: rest) value = some tree ↔
      ∃ child new, root.get? (root.placeOf segment) = some child ∧
        child.insertAt? (next :: rest) value = some new ∧
        tree = root.set (root.placeOf segment) new := by
  rw [insertAt?_cons (List.cons_ne_nil _ _)]
  simp only [Option.bind_eq_some_iff, Option.map_eq_some_iff, eq_comm (a := tree)]
  constructor
  · rintro ⟨child, known, new, made, rfl⟩
    exact ⟨child, new, known, made, rfl⟩
  · rintro ⟨child, new, known, made, rfl⟩
    exact ⟨child, known, new, made, rfl⟩

/-- A field is set exactly if indices lead to a map that takes it. -/
theorem isSome_insertAt?_iff (defaultKey : String) :
    (root.insertAt? path value).isSome ↔ ∃ above last parent, path = above ++ [last] ∧
      root.readsIndices above = true ∧ root.lookup? above defaultKey = some parent ∧
      parent.isMap = true := by
  rw [Option.isSome_iff_exists]
  induction path generalizing root with
  | nil => simp [insertAt?]
  | cons segment rest ih =>
    cases rest with
    | nil =>
      constructor
      · rintro ⟨tree, made⟩
        exact ⟨[], segment, root, rfl, rfl, rfl, (insertAt?_singleton_iff.mp made).1⟩
      · rintro ⟨above, last, parent, split, -, found, isMap⟩
        cases above with
        | cons first above => simp at split
        | nil =>
          obtain rfl : segment = last := List.singleton_inj.mp split
          cases found
          exact ⟨_, insertAt?_singleton_iff.mpr ⟨isMap, rfl⟩⟩
    | cons next rest =>
      constructor
      · rintro ⟨tree, made⟩
        obtain ⟨child, new, known, below, -⟩ := insertAt?_cons_iff.mp made
        obtain ⟨above, last, parent, split, indices, found, isMap⟩ := ih.mp ⟨new, below⟩
        refine ⟨segment :: above, last, parent, by rw [split]; rfl, ?_, ?_, isMap⟩
        · rw [readsIndices_cons known, indices]
        · rw [lookup?_cons_of_get? known, found]
      · rintro ⟨above, last, parent, split, indices, found, isMap⟩
        cases above with
        | nil => cases split
        | cons first above =>
          obtain ⟨rfl, further⟩ := List.cons_eq_cons.mp split
          rw [readsIndices, Bool.and_eq_true] at indices
          rw [lookup?_cons, step?_eq_get? indices.1] at found
          obtain ⟨child, known, found⟩ := Option.bind_eq_some_iff.mp found
          rw [known] at indices
          obtain ⟨new, made⟩ := ih.mpr ⟨above, last, parent, further, indices.2, found, isMap⟩
          exact ⟨_, insertAt?_cons_iff.mpr ⟨child, new, known, made, rfl⟩⟩

/-- The node that was set is found. -/
theorem lookup?_of_insertAt? (made : root.insertAt? path value = some tree) :
    tree.lookup? path defaultKey = some value := by
  induction path generalizing root tree with
  | nil => cases made
  | cons segment rest ih =>
    cases rest with
    | nil =>
      obtain ⟨isMap, rfl⟩ := insertAt?_singleton_iff.mp made
      have there : (root.set (.field segment) value).get?
          ((root.set (.field segment) value).placeOf segment) = some value := by
        rw [placeOf_set, placeOf_of_isMap isMap, get?_set_field isMap]
      exact lookup?_cons_of_get? there
    | cons next rest =>
      obtain ⟨child, new, known, below, rfl⟩ := insertAt?_cons_iff.mp made
      have there : (root.set (root.placeOf segment) new).get?
          ((root.set (root.placeOf segment) new).placeOf segment) = some new := by
        rw [placeOf_set, get?_set_self (Option.isSome_of_eq_some known)]
      rw [lookup?_cons_of_get? there, ih below]

/-- Off the way, nothing changes. -/
theorem lookup?_insertAt?_of_apart (made : root.insertAt? path value = some tree)
    (indices : root.readsIndices other = true) (beyond : ¬root.places path <+: root.places other)
    (above : ¬root.places other <+: root.places path) :
    tree.lookup? other defaultKey = root.lookup? other defaultKey := by
  induction path generalizing root tree other with
  | nil => cases made
  | cons segment rest ih =>
    cases other with
    | nil => exact absurd List.nil_prefix above
    | cons first later =>
      rw [readsIndices, Bool.and_eq_true] at indices
      -- a step to another child is not affected by what is set
      have step {place : ChildPlace} {new : Node} (differs : place ≠ root.placeOf first) :
          (root.set place new).lookup? (first :: later) defaultKey =
            root.lookup? (first :: later) defaultKey := by
        rw [lookup?_cons, lookup?_cons, step?_eq_get? (readsIndex_set.trans indices.1),
          step?_eq_get? indices.1, placeOf_set, get?_set_of_ne differs]
      cases rest with
      | nil =>
        obtain ⟨isMap, rfl⟩ := insertAt?_singleton_iff.mp made
        refine step fun same => beyond ?_
        rw [places_singleton, placeOf_of_isMap isMap, same, places]
        exact List.cons_prefix_cons.mpr ⟨rfl, List.nil_prefix⟩
      | cons next rest =>
        obtain ⟨child, new, known, below, rfl⟩ := insertAt?_cons_iff.mp made
        by_cases same : root.placeOf segment = root.placeOf first
        · have known' := same ▸ known
          have there : (root.set (root.placeOf segment) new).get?
              ((root.set (root.placeOf segment) new).placeOf first) = some new := by
            rw [placeOf_set, ← same, get?_set_self (Option.isSome_of_eq_some known)]
          rw [places_cons known, places_cons known', same, List.cons_prefix_cons] at beyond above
          rw [known'] at indices
          rw [lookup?_cons_of_get? there, lookup?_cons_of_get? known']
          exact ih below indices.2 (fun inside => beyond ⟨rfl, inside⟩)
            fun inside => above ⟨rfl, inside⟩
        · exact step same

/-- Setting a field and looking up paths obey the laws of a lens. A field is set exactly if indices
lead to a map that takes it. Written in place, the tree stays as it is if the field is not set.
Otherwise the path leads to the node that was set, and every other path whose steps into lists are
indices leads to where it led before, unless, with indices turned into positions, it goes through
the field or stops above it. -/
theorem insertAt?_lens (root : Node) (path : List String) (value : Node) (defaultKey : String) :
    ((root.insertAt? path value).isSome ↔ ∃ above last parent, path = above ++ [last] ∧
      root.readsIndices above = true ∧ root.lookup? above defaultKey = some parent ∧
      parent.isMap = true) ∧
    (root.Ordered → (root.insertAt? path value = none → root.overwrite path value = (false, root)) ∧
      ∀ tree, root.insertAt? path value = some tree → root.overwrite path value = (true, tree)) ∧
    ∀ tree, root.insertAt? path value = some tree →
      tree.lookup? path defaultKey = some value ∧
      ∀ other, root.readsIndices other = true → ¬root.places path <+: root.places other →
        ¬root.places other <+: root.places path →
          tree.lookup? other defaultKey = root.lookup? other defaultKey := by
  refine ⟨isSome_insertAt?_iff defaultKey, fun ordered => ?_, fun tree made => ?_⟩
  · rw [overwrite_eq ordered]
    refine ⟨fun refused => ?_, fun tree made => ?_⟩
    · rw [refused]
      rfl
    · rw [made]
      rfl
  · exact ⟨lookup?_of_insertAt? made, fun other indices beyond above =>
      lookup?_insertAt?_of_apart made indices beyond above⟩

end

end Node

/-- A list in which no entry has an identity. -/
def pairList : Node :=
  .plain (.list [.plain (.map [("a", .plain (.int 1) "t")]) "t",
    .plain (.map [("a", .plain (.int 2) "t")]) "t"]) "t"

/-- A map with the list. -/
def pairTree : Node := .plain (.map [("l", pairList)]) "t"

theorem ordered_pairTree : pairTree.Ordered := by
  have leaf (n : Int64) : (Node.plain (.int n) "t").Ordered := .leaf (by simp) (by simp)
  refine ordered_singleton (.list fun item member => ?_)
  simp only [List.mem_cons, List.not_mem_nil, or_false] at member
  rcases member with rfl | rfl
  · exact ordered_singleton (leaf 1)
  · exact ordered_singleton (leaf 2)

/-- The last entry of two has four names. -/
example : ∀ name ∈ ["1", "[1]", "-1", "[-1]"],
    pairTree.places ["l", name] = [.field "l", .entry 1] := by
  decide +kernel

/-- A field is set in the last entry, counted from the end. The other field of this entry, counted
from the start, stays. -/
theorem Node.insertAt?_lens_pairTree :
    ∃ tree, pairTree.insertAt? ["l", "-1", "b"] (.plain (.int 3) "t") = some tree ∧
      pairTree.Ordered ∧ pairTree.readsIndices ["l", "[1]", "a"] = true ∧
      (¬pairTree.places ["l", "-1", "b"] <+: pairTree.places ["l", "[1]", "a"]) ∧
      (¬pairTree.places ["l", "[1]", "a"] <+: pairTree.places ["l", "-1", "b"]) ∧
      pairTree.overwrite ["l", "-1", "b"] (.plain (.int 3) "t") = (true, tree) ∧
      tree.lookup? ["l", "-1", "b"] "name" = some (.plain (.int 3) "t") ∧
      tree.lookup? ["l", "[1]", "a"] "name" = some (.plain (.int 2) "t") := by
  obtain ⟨-, written, laws⟩ :=
    Node.insertAt?_lens pairTree ["l", "-1", "b"] (.plain (.int 3) "t") "name"
  have indices : pairTree.readsIndices ["l", "[1]", "a"] = true := by decide +kernel
  have beyond : ¬pairTree.places ["l", "-1", "b"] <+: pairTree.places ["l", "[1]", "a"] := by
    decide +kernel
  have above : ¬pairTree.places ["l", "[1]", "a"] <+: pairTree.places ["l", "-1", "b"] := by
    decide +kernel
  obtain ⟨tree, made⟩ := Option.isSome_iff_exists.mp (show
    (pairTree.insertAt? ["l", "-1", "b"] (.plain (.int 3) "t")).isSome by decide +kernel)
  obtain ⟨found, others⟩ := laws tree made
  exact ⟨tree, made, ordered_pairTree, indices, beyond, above,
    (written ordered_pairTree).2 tree made, found, others _ indices beyond above⟩

end Cascade
