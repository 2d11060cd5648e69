import Cascade.Flow.Apply
import Cascade.Proofs.PlainData

/-!
# What stubs add to a template

Adding the flagged fields of a stub walks down the stub and sets fields from the root of the
template, along the path of each. The result is a fill: a tree that is put together from the
template and the stub side by side, without any path.

The walk changes only what stands at its path, so the template around it is a context with one hole
(`Node.Hole`). Looking up a path from the root and setting a field along it agree on such a context
as long as its steps are names of fields and indices of entries. A step by the identity of an entry
is found but not followed by an insertion, and nothing is added below it.

## Main definitions

* `Node.Ordered`: every map of a tree is sorted by the names of its fields.
* `Node.filled`: the fill of a template by a stub.
* `Node.IsKeptIn`: a tree has all the values of a template, perhaps with further fields.
* `Node.Hole`: a context that a path leads into.

## Main statements

* `injected_eq_filled`: what stubs add to a template is the fill by one after the other, which keeps
  the template and takes every further field from the first stub that flags it.
-/

namespace Cascade

/-! ### Ordered trees -/

namespace Fields

variable {α : Type}

/-- Setting a name twice leaves the later value. -/
theorem insert_insert (key : String) (value old : α) (fields : Fields α) :
    insert key value (insert key old fields) = insert key value fields := by
  induction fields with
  | nil => simp [insert]
  | cons field rest ih =>
    obtain ⟨name, other⟩ := field
    by_cases less : key < name
    · simp [insert, less]
    · by_cases same : key = name
      · subst same
        simp [insert]
      · simp [insert, less, same, ih]

/-- Setting a name to the value that it has changes nothing. -/
theorem Sorted.insert_of_find? {fields : Fields α} {key : String} {value : α}
    (sorted : fields.Sorted) (found : find? fields key = some value) :
    Fields.insert key value fields = fields := by
  induction fields with
  | nil => cases found
  | cons field rest ih =>
    obtain ⟨name, other⟩ := field
    obtain ⟨before, tail⟩ := List.pairwise_cons.mp sorted
    rw [find?_cons] at found
    split at found
    · next same =>
      cases found
      subst same
      simp [Fields.insert]
    · next differ =>
      have known : name < key := before key (List.mem_map_of_mem (mem_of_find? found))
      have above : ¬key < name := fun less => String.lt_irrefl _ (String.lt_trans less known)
      rw [Fields.insert, if_neg above, if_neg (Ne.symm differ), ih tail found]

end Fields

/-- The fields of every map of the tree are sorted by their names. -/
inductive Node.Ordered : Node → Prop
  | list {items : List Node} {annotations : Annotations} {source : String}
      (entries : ∀ item ∈ items, item.Ordered) : Ordered ⟨.list items, annotations, source⟩
  | map {fields : Fields Node} {annotations : Annotations} {source : String}
      (sorted : fields.Sorted) (below : ∀ field ∈ fields, field.2.Ordered) :
      Ordered ⟨.map fields, annotations, source⟩
  | leaf {value : Value} {annotations : Annotations} {source : String}
      (notList : ∀ items, value ≠ .list items) (notMap : ∀ fields, value ≠ .map fields) :
      Ordered ⟨value, annotations, source⟩

/-! ### Fills -/

/-- The position of the entry that a segment names by its index, in a list of some length. -/
def Path.entryIndex? (length : Nat) (segment : String) : Option Nat :=
  (parseIndex? segment).bind (resolveIndex? length)

theorem Path.lt_of_entryIndex? {length position : Nat} {segment : String}
    (index : entryIndex? length segment = some position) : position < length := by
  obtain ⟨number, -, resolved⟩ := Option.bind_eq_some_iff.mp index
  unfold resolveIndex? at resolved
  extract_lets number at resolved
  obtain ⟨bounds, same⟩ := Option.ite_none_right_eq_some.mp resolved
  rw [Option.some.injEq] at same
  omega

/-- A field of a stub is added to a template that lacks it. -/
def Node.isOffered (field : Node) : Bool := field.annotations.inject || field.annotations.default

/-- The template with a field of a stub: what the template has under the name of the field is
changed, and a field that it lacks is added if it is offered. -/
def Node.fillAt (fill : Node → Node) (template : Node) (key : String) (field : Node) : Node :=
  match template.value with
  | .map fields =>
    match Fields.find? fields key with
    | some here => template.withValue (.map (Fields.insert key (fill here) fields))
    | none =>
      if field.isOffered then template.withValue (.map (Fields.insert key field fields))
      else template
  | .list items =>
    match Path.entryIndex? items.length key with
    | some position => template.withValue (.list (items.modify position fill))
    | none => template
  | _ => template

theorem Node.fillAt_leaf {fill : Node → Node} {template : Node} {key : String} {field : Node}
    (notList : ∀ items, template.value ≠ .list items)
    (notMap : ∀ fields, template.value ≠ .map fields) :
    template.fillAt fill key field = template := by
  unfold fillAt
  split
  · next fields shape => exact absurd shape (notMap fields)
  · next items shape => exact absurd shape (notList items)
  · rfl

mutual

/-- The template, filled by a stub. -/
def Node.filled (template : Node) : Node → Node
  | ⟨.map fields, _, _⟩ => template.filledByFields fields
  | _ => template

/-- The template, filled by the fields of a stub one after the other. -/
def Node.filledByFields (template : Node) : List (String × Node) → Node
  | [] => template
  | (key, field) :: rest =>
    (template.fillAt (fun here => here.filled field) key field).filledByFields rest

end

/-! ### Steps into a template -/

section

variable {defaultKey key : String} {fields : Fields Node} {items : List Node}
  {annotations : Annotations} {source : String} {value : Node} {rest : List String}

theorem Node.step?_list_of_index {index : Int} (read : Path.parseIndex? key = some index) :
    (Node.mk (.list items) annotations source).step? key defaultKey =
      (Path.entryIndex? items.length key).bind (items[·]?) := by
  unfold Node.step? Node.stepBy? Path.entryIndex?
  simp only [read, Option.bind_some]

theorem Node.insertAt?_field (further : rest ≠ []) :
    (Node.mk (.map fields) annotations source).insertAt? (key :: rest) value =
      (Fields.find? fields key).bind fun child => (child.insertAt? rest value).map fun child =>
        ⟨.map (Fields.insert key child fields), annotations, source⟩ := by
  obtain ⟨next, more, rfl⟩ := List.exists_cons_of_ne_nil further
  cases known : Fields.find? fields key with
  | none => simp [Node.insertAt?, known]
  | some child =>
    cases inner : child.insertAt? (next :: more) value <;>
      simp [Node.insertAt?, known, inner, Node.withValue]

theorem Node.insertAt?_entry (further : rest ≠ []) :
    (Node.mk (.list items) annotations source).insertAt? (key :: rest) value =
      (Path.entryIndex? items.length key).bind fun position => items[position]?.bind fun child =>
        (child.insertAt? rest value).map fun child =>
          ⟨.list (items.set position child), annotations, source⟩ := by
  obtain ⟨next, more, rfl⟩ := List.exists_cons_of_ne_nil further
  unfold Path.entryIndex?
  cases read : Path.parseIndex? key with
  | none => simp [Node.insertAt?, read]
  | some index =>
    cases resolved : Path.resolveIndex? items.length index with
    | none => simp [Node.insertAt?, read, resolved]
    | some position =>
      cases known : items[position]? with
      | none => simp [Node.insertAt?, read, resolved, known]
      | some child =>
        cases inner : child.insertAt? (next :: more) value <;>
          simp [Node.insertAt?, read, resolved, known, inner, Node.withValue]

/-- A field is set in a map only. -/
theorem Node.insertAt?_singleton_of_not_map {node : Node}
    (notMap : ∀ fields, node.value ≠ .map fields) :
    node.insertAt? [key] value = none := by
  unfold Node.insertAt?
  split
  · next fields shape => exact absurd shape (notMap fields)
  · rfl

/-- Nothing is set below a value without parts. -/
theorem Node.insertAt?_leaf {node : Node} (notList : ∀ items, node.value ≠ .list items)
    (notMap : ∀ fields, node.value ≠ .map fields) (path : List String) :
    node.insertAt? path value = none := by
  unfold Node.insertAt?
  split
  · rfl
  · split
    · next fields shape => exact absurd shape (notMap fields)
    · rfl
  · split
    · next fields shape => exact absurd shape (notMap fields)
    · next items shape => exact absurd shape (notList items)
    · rfl

end

/-! ### Contexts -/

/-- A tree around a place: what a path finds below the place, and what is set there, does not depend
on the tree around. -/
structure Node.Hole (defaultKey : String) (path : List String) (root : Node → Node) : Prop where
  lookup : ∀ node rest,
    (root node).lookup? (path ++ rest) defaultKey = node.lookup? rest defaultKey
  insert : ∀ node rest value, rest ≠ [] →
    (root node).insertAt? (path ++ rest) value = (node.insertAt? rest value).map root

namespace Node.Hole

variable {defaultKey : String} {path : List String} {root : Node → Node}

theorem nil (defaultKey : String) : Hole defaultKey [] id where
  lookup _ _ := rfl
  insert _ _ _ _ := by simp

variable (hole : Hole defaultKey path root)

include hole

theorem lookup_singleton (node : Node) (key : String) :
    (root node).lookup? (path ++ [key]) defaultKey = node.step? key defaultKey := by
  rw [hole.lookup, Node.lookup?_cons]
  exact Option.bind_fun_some _

/-- A field of a map is a place. -/
theorem field (key : String) (fields : Fields Node) (annotations : Annotations) (source : String) :
    Hole defaultKey (path ++ [key]) fun node =>
      root ⟨.map (Fields.insert key node fields), annotations, source⟩ where
  lookup := by
    intro node rest
    have found : Fields.find? (Fields.insert key node fields) key = some node := by
      rw [Fields.find?_insert, if_pos rfl]
    rw [List.append_assoc, List.singleton_append, hole.lookup, Node.lookup?_cons]
    show (Fields.find? (Fields.insert key node fields) key).bind _ = _
    rw [found, Option.bind_some]
  insert := by
    intro node rest value further
    rw [List.append_assoc, List.singleton_append, hole.insert _ _ _ (List.cons_ne_nil _ _),
      Node.insertAt?_field further, Fields.find?_insert, if_pos rfl, Option.bind_some]
    simp only [Fields.insert_insert, Option.map_map]
    rfl

/-- An entry of a list is a place, by its index. -/
theorem entry {key : String} {items : List Node} {position : Nat}
    (index : Path.entryIndex? items.length key = some position) (inside : position < items.length)
    (annotations : Annotations) (source : String) :
    Hole defaultKey (path ++ [key]) fun node =>
      root ⟨.list (items.set position node), annotations, source⟩ where
  lookup := by
    intro node rest
    obtain ⟨number, read, -⟩ := Option.bind_eq_some_iff.mp index
    rw [List.append_assoc, List.singleton_append, hole.lookup, Node.lookup?_cons,
      Node.step?_list_of_index read, List.length_set, index, Option.bind_some,
      List.getElem?_set_self inside, Option.bind_some]
  insert := by
    intro node rest value further
    rw [List.append_assoc, List.singleton_append, hole.insert _ _ _ (List.cons_ne_nil _ _),
      Node.insertAt?_entry further, List.length_set, index, Option.bind_some,
      List.getElem?_set_self inside, Option.bind_some]
    simp only [List.set_set, Option.map_map]
    rfl

end Node.Hole

/-! ### The walk down a stub -/

section

variable {defaultKey : String} {tree template stub : Node} {path : List String}

theorem insertAbsent_of_not_map (notMap : ∀ fields, stub.value ≠ .map fields) :
    insertAbsent defaultKey tree path stub = tree := by
  rw [insertAbsent]
  rintro fields _ _ rfl
  exact notMap fields rfl

theorem Node.filled_of_not_map (notMap : ∀ fields, stub.value ≠ .map fields) :
    template.filled stub = template := by
  rw [Node.filled]
  rintro fields _ _ rfl
  exact notMap fields rfl

/-- Nothing is added below a place that no insertion reaches. -/
theorem insertAbsent_of_blocked
    (blocked : ∀ rest value, rest ≠ [] → tree.insertAt? (path ++ rest) value = none) :
    insertAbsent defaultKey tree path stub = tree := by
  induction stub using Node.treeInduction generalizing path with
  | list items annotations source ih => exact insertAbsent_of_not_map (by simp)
  | map fields annotations source ih =>
    rw [insertAbsent]
    induction fields with
    | nil => rw [insertAbsentFields]
    | cons field rest others =>
      have later : ∀ result, result = tree →
          insertAbsentFields defaultKey result path rest = tree := by
        rintro _ rfl
        exact others fun field member => ih field (List.mem_cons_of_mem _ member)
      rw [insertAbsentFields]
      apply later
      split
      · refine ih field List.mem_cons_self fun more value further => ?_
        rw [List.append_assoc]
        exact blocked _ value (List.cons_ne_nil _ _)
      · split
        · rw [blocked _ _ (List.cons_ne_nil _ _), Option.getD_none]
        · rfl
  | leaf value annotations source notList notMap => exact insertAbsent_of_not_map notMap

namespace Node.Ordered

theorem fillAt {fill : Node → Node} {key : String} {field : Node} (ordered : template.Ordered)
    (fills : ∀ here : Node, here.Ordered → (fill here).Ordered) (offered : field.Ordered) :
    (template.fillAt fill key field).Ordered := by
  cases ordered with
  | list entries =>
    unfold Node.fillAt
    dsimp only
    split
    · refine .list fun item member => ?_
      obtain ⟨index, inside, rfl⟩ := List.getElem_of_mem member
      rw [List.getElem_modify]
      split
      · exact fills _ (entries _ (List.getElem_mem _))
      · exact entries _ (List.getElem_mem _)
    · exact .list entries
  | map sorted below =>
    unfold Node.fillAt
    dsimp only
    split
    · next here found =>
      refine .map (sorted.insert _ _) fun entry member => ?_
      rcases Fields.mem_insert member with rfl | old
      · exact fills _ (below _ (Fields.mem_of_find? found))
      · exact below entry old
    · split
      · refine .map (sorted.insert _ _) fun entry member => ?_
        rcases Fields.mem_insert member with rfl | old
        · exact offered
        · exact below entry old
      · exact .map sorted below
  | leaf notList notMap =>
    rw [Node.fillAt_leaf notList notMap]
    exact .leaf notList notMap

/-- Filling keeps trees ordered. -/
theorem filled (ordered : template.Ordered) (offered : stub.Ordered) :
    (template.filled stub).Ordered := by
  induction offered generalizing template with
  | list entries =>
    rw [Node.filled_of_not_map (by simp)]
    exact ordered
  | @map fields annotations source sorted below ih =>
    rw [Node.filled]
    clear sorted
    induction fields generalizing template with
    | nil =>
      rw [Node.filledByFields]
      exact ordered
    | cons field rest others =>
      obtain ⟨here, later⟩ := List.forall_mem_cons.mp below
      obtain ⟨fills, further⟩ := List.forall_mem_cons.mp ih
      rw [Node.filledByFields]
      exact others later further (ordered.fillAt (fun here => fills) here)
  | leaf notList notMap =>
    rw [Node.filled_of_not_map notMap]
    exact ordered

end Node.Ordered

/-- A field of a stub, added along its path, changes the template at the place of the path. -/
theorem Node.Hole.insertAbsentFields_cons {root : Node → Node} {key : String} {field : Node}
    {rest : List (String × Node)} (hole : Hole defaultKey path root) (ordered : template.Ordered)
    (walk : ∀ {path root} {here : Node}, Hole defaultKey path root → here.Ordered →
      insertAbsent defaultKey (root here) path field = root (here.filled field)) :
    insertAbsentFields defaultKey (root template) path ((key, field) :: rest) =
      insertAbsentFields defaultKey
        (root (template.fillAt (fun here => here.filled field) key field)) path rest := by
  rw [insertAbsentFields]
  congr 1
  rw [hole.lookup_singleton, hole.insert _ _ _ (List.cons_ne_nil _ _)]
  cases ordered with
  | @map fields annotations source sorted below =>
    have stepped : (Node.mk (.map fields) annotations source).step? key defaultKey =
        Fields.find? fields key := rfl
    unfold Node.fillAt
    dsimp only
    rw [stepped]
    cases found : Fields.find? fields key with
    | some here =>
      have inside := hole.field key fields annotations source
      have filled := walk inside (below _ (Fields.mem_of_find? found))
      rw [sorted.insert_of_find? found] at filled
      exact filled
    | none =>
      unfold Node.isOffered
      dsimp only
      split <;> rfl
  | @list items annotations source entries =>
    unfold Node.fillAt
    dsimp only
    cases index : Path.entryIndex? items.length key with
    | none =>
      -- A step by the identity of an entry may find one, but an insertion does not follow it.
      dsimp only
      split
      · refine insertAbsent_of_blocked fun more value further => ?_
        rw [List.append_assoc, List.singleton_append, hole.insert _ _ _ (List.cons_ne_nil _ _),
          Node.insertAt?_entry further, index]
        rfl
      · split
        · rw [Node.insertAt?_singleton_of_not_map (by simp)]
          rfl
        · rfl
    | some position =>
      have inside := Path.lt_of_entryIndex? index
      obtain ⟨number, read, -⟩ := Option.bind_eq_some_iff.mp index
      have filled := walk (hole.entry index inside annotations source)
        (entries _ (List.getElem_mem inside))
      have changed : items.modify position (fun here => here.filled field) =
          items.set position (items[position].filled field) := by
        rw [List.modify_eq_set, List.getElem?_eq_getElem inside, Option.getD_some]
      rw [List.set_getElem_self] at filled
      rw [Node.step?_list_of_index read, index, Option.bind_some, List.getElem?_eq_getElem inside]
      dsimp only
      rw [changed]
      exact filled
  | @leaf value annotations source notList notMap =>
    have shut : (Node.mk value annotations source).step? key defaultKey = none := by
      unfold Node.step? Node.stepBy?
      split
      · next fields shape => exact absurd shape (notMap fields)
      · next items shape => exact absurd shape (notList items)
      · rfl
    rw [shut, Node.fillAt_leaf notList notMap, Node.insertAt?_leaf notList notMap]
    dsimp only
    split <;> rfl

/-- Adding the fields of a stub from the root fills what stands at the path. -/
theorem Node.Hole.insertAbsent {root : Node → Node} (hole : Hole defaultKey path root)
    (ordered : template.Ordered) (offered : stub.Ordered) :
    insertAbsent defaultKey (root template) path stub = root (template.filled stub) := by
  induction offered generalizing path root template with
  | list entries => rw [insertAbsent_of_not_map (by simp), Node.filled_of_not_map (by simp)]
  | @map fields annotations source sorted below ih =>
    rw [Cascade.insertAbsent, Node.filled]
    clear sorted
    induction fields generalizing template with
    | nil => rw [insertAbsentFields, Node.filledByFields]
    | cons field rest others =>
      obtain ⟨here, later⟩ := List.forall_mem_cons.mp below
      obtain ⟨walk, further⟩ := List.forall_mem_cons.mp ih
      rw [hole.insertAbsentFields_cons ordered walk, Node.filledByFields]
      exact others later further (ordered.fillAt (fun _ inside => inside.filled here) here)
  | leaf notList notMap => rw [insertAbsent_of_not_map notMap, Node.filled_of_not_map notMap]

end

/-! ### The parts of a fill -/

/-- A field of a map that is filled by another one. -/
def Node.fillField (fill : Node → Node → Node) : Option Node → Option Node → Option Node
  | some here, some field => some (fill here field)
  | none, some field => if field.isOffered then some field else none
  | present, none => present

/-- A map is filled field by field. -/
def Node.FillsFields (fill : Node → Node → Node) : Prop :=
  ∀ {fields extra : Fields Node} (annotations annotations' : Annotations) (source source' : String),
    fields.Sorted → extra.Sorted → ∃ all : Fields Node, all.Sorted ∧
      fill ⟨.map fields, annotations, source⟩ ⟨.map extra, annotations', source'⟩ =
        ⟨.map all, annotations, source⟩ ∧
      ∀ key, Fields.find? all key =
        fillField fill (Fields.find? fields key) (Fields.find? extra key)

/-- A map is filled by the fields of a map, and an entry of a list by the fields of a map that name
it by its index, in order of the names. Nothing else is changed. -/
structure Node.IsFill (fill : Node → Node → Node) : Prop where
  fields : FillsFields fill
  entries : ∀ (items : List Node) (extra : Fields Node) (annotations annotations' : Annotations)
    (source source' : String), ∃ all : List Node,
      fill ⟨.list items, annotations, source⟩ ⟨.map extra, annotations', source'⟩ =
        ⟨.list all, annotations, source⟩ ∧
      ∀ i, all[i]? = items[i]?.map fun item =>
        (extra.filter fun field => Path.entryIndex? items.length field.1 = some i).foldl
          (fun item field => fill item field.2) item
  value : ∀ {template : Node} (stub : Node), (∀ items, template.value ≠ .list items) →
    (∀ fields, template.value ≠ .map fields) → fill template stub = template
  noFields : ∀ (template : Node) {stub : Node}, (∀ fields, stub.value ≠ .map fields) →
    fill template stub = template

theorem Node.fillAt_map (fill : Node → Node → Node) {fields : Fields Node} (sorted : fields.Sorted)
    (name : String) (field : Node) (annotations : Annotations) (source : String) :
    ∃ all : Fields Node, all.Sorted ∧
      (Node.mk (.map fields) annotations source).fillAt (fun here => fill here field) name field =
        ⟨.map all, annotations, source⟩ ∧
      ∀ key, Fields.find? all key =
        if name = key then fillField fill (Fields.find? fields key) (some field)
        else Fields.find? fields key := by
  unfold fillAt
  dsimp only
  split
  · next here found =>
    refine ⟨_, sorted.insert _ _, rfl, fun key => ?_⟩
    rw [Fields.find?_insert]
    refine ite_congr rfl ?_ fun _ => rfl
    rintro rfl
    rw [found, fillField]
  · next absent =>
    split
    · next offered =>
      refine ⟨_, sorted.insert _ _, rfl, fun key => ?_⟩
      rw [Fields.find?_insert]
      refine ite_congr rfl ?_ fun _ => rfl
      rintro rfl
      rw [absent, fillField, if_pos offered]
    · next unoffered =>
      refine ⟨fields, sorted, rfl, fun key => ?_⟩
      split
      · next same =>
        rw [← same, absent, fillField, if_neg unoffered]
      · rfl

theorem Node.filledByFields_map {fields extra : Fields Node} (annotations : Annotations)
    (source : String) (sorted : fields.Sorted) (distinct : (Fields.keys extra).Nodup) :
    ∃ all : Fields Node, all.Sorted ∧
      (Node.mk (.map fields) annotations source).filledByFields extra =
        ⟨.map all, annotations, source⟩ ∧
      ∀ key, Fields.find? all key =
        fillField filled (Fields.find? fields key) (Fields.find? extra key) := by
  induction extra generalizing fields with
  | nil =>
    rw [filledByFields]
    refine ⟨fields, sorted, rfl, fun key => ?_⟩
    cases Fields.find? fields key <;> rfl
  | cons entry rest ih =>
    obtain ⟨name, field⟩ := entry
    obtain ⟨fresh, distinct⟩ := List.nodup_cons.mp distinct
    obtain ⟨between, sorted, step, here⟩ := fillAt_map filled sorted name field annotations source
    obtain ⟨all, sorted, later, there⟩ := ih sorted distinct
    rw [filledByFields, step]
    refine ⟨all, sorted, later, fun key => ?_⟩
    rw [there, here, Fields.find?_cons]
    split
    · next same =>
      -- No later field of the stub has the name.
      have absent : Fields.find? rest key = none := by
        refine Fields.find?_eq_none_iff.mpr fun later member known => fresh ?_
        show name ∈ List.map Prod.fst rest
        rw [same, ← known]
        exact List.mem_map_of_mem member
      rw [absent]
      cases fillField filled (Fields.find? fields key) (some field) <;> rfl
    · rfl

theorem Node.filledByFields_list (items : List Node) (extra : Fields Node)
    (annotations : Annotations) (source : String) : ∃ all : List Node,
      (Node.mk (.list items) annotations source).filledByFields extra =
        ⟨.list all, annotations, source⟩ ∧
      ∀ i, all[i]? = items[i]?.map fun item =>
        (extra.filter fun field => Path.entryIndex? items.length field.1 = some i).foldl
          (fun item field => item.filled field.2) item := by
  induction extra generalizing items with
  | nil =>
    rw [filledByFields]
    exact ⟨items, rfl, fun i => Option.map_id'.symm⟩
  | cons entry rest ih =>
    obtain ⟨name, field⟩ := entry
    rw [filledByFields]
    unfold fillAt
    dsimp only
    cases named : Path.entryIndex? items.length name with
    | none =>
      obtain ⟨all, later, each⟩ := ih items
      refine ⟨all, later, fun i => ?_⟩
      rw [each, List.filter_cons, named]
      rfl
    | some position =>
      obtain ⟨all, later, each⟩ := ih (items.modify position fun here => here.filled field)
      refine ⟨all, later, fun i => ?_⟩
      rw [each, List.getElem?_modify, List.length_modify, List.filter_cons, named]
      by_cases same : position = i
      · subst same
        simp [Function.comp_def]
      · simp [same]

/-- The fill by a stub is made up of those of the parts. -/
theorem Node.isFill_filled : IsFill filled where
  fields := by
    intro fields extra annotations annotations' source source' sorted sorted'
    rw [filled]
    exact filledByFields_map annotations source sorted sorted'.distinct
  entries := by
    intro items extra annotations annotations' source source'
    rw [filled]
    exact filledByFields_list items extra annotations source
  value := by
    intro template stub notList notMap
    have kept : ∀ extra, template.filledByFields extra = template := by
      intro extra
      induction extra with
      | nil => rw [filledByFields]
      | cons field rest ih => rw [filledByFields, fillAt_leaf notList notMap, ih]
    obtain ⟨value, annotations, source⟩ := stub
    cases value with
    | map extra =>
      rw [filled]
      exact kept extra
    | _ => exact filled_of_not_map (by simp)
  noFields := fun _ => filled_of_not_map

/-! ### What is kept -/

/-- The tree has every value of the template at its place. Maps may have further fields. -/
inductive Node.IsKeptIn : Node → Node → Prop
  | value {node : Node} (notList : ∀ items, node.value ≠ .list items)
      (notMap : ∀ fields, node.value ≠ .map fields) : IsKeptIn node node
  | list {items items' : List Node} {annotations : Annotations} {source : String}
      (same : items.length = items'.length)
      (below : ∀ (i : Nat) item item', items[i]? = some item → items'[i]? = some item' →
        IsKeptIn item item') :
      IsKeptIn ⟨.list items, annotations, source⟩ ⟨.list items', annotations, source⟩
  | map {fields fields' : Fields Node} {annotations : Annotations} {source : String}
      {after : String → Node}
      (stays : ∀ key child, Fields.find? fields key = some child →
        Fields.find? fields' key = some (after key))
      (below : ∀ key child, Fields.find? fields key = some child → IsKeptIn child (after key)) :
      IsKeptIn ⟨.map fields, annotations, source⟩ ⟨.map fields', annotations, source⟩

namespace Node.IsKeptIn

variable {template tree result stub : Node}

/-- A map is kept in one that has a field for each of its fields, in which the field is kept. -/
theorem of_fields {fields fields' : Fields Node} {annotations : Annotations} {source : String}
    (each : ∀ key child, Fields.find? fields key = some child →
      ∃ after, Fields.find? fields' key = some after ∧ child.IsKeptIn after) :
    IsKeptIn ⟨.map fields, annotations, source⟩ ⟨.map fields', annotations, source⟩ := by
  refine @IsKeptIn.map fields fields' annotations source
    (fun key => (Fields.find? fields' key).getD default)
    (fun key child found => ?_) fun key child found => ?_
  · obtain ⟨after, stands, -⟩ := each key child found
    rw [stands, Option.getD_some]
  · obtain ⟨after, stands, kept⟩ := each key child found
    rw [stands, Option.getD_some]
    exact kept

theorem refl (node : Node) : node.IsKeptIn node := by
  induction node using Node.treeInduction with
  | list items annotations source ih =>
    refine .list rfl fun i item item' found found' => ?_
    rw [found, Option.some.injEq] at found'
    exact found' ▸ ih item (List.mem_of_getElem? found)
  | map fields annotations source ih =>
    exact .of_fields fun key child found => ⟨child, found, ih _ (Fields.mem_of_find? found)⟩
  | leaf value annotations source notList notMap => exact .value notList notMap

theorem trans (first : template.IsKeptIn tree) (second : tree.IsKeptIn result) :
    template.IsKeptIn result := by
  induction first generalizing result with
  | value notList notMap => exact second
  | @list items items' annotations source same below ih =>
    cases second with
    | value notList notMap => exact absurd rfl (notList _)
    | @list _ items'' _ _ same' below' =>
      refine .list (same.trans same') fun i item item'' found found'' => ?_
      have inside : i < items'.length := by
        rw [← same]
        exact (List.getElem?_eq_some_iff.mp found).1
      have between := List.getElem?_eq_getElem inside
      exact ih i item _ found between (below' i _ item'' between found'')
  | @map fields fields' annotations source after stays below ih =>
    cases second with
    | value notList notMap => exact absurd rfl (notMap _)
    | map stays' below' =>
      refine .of_fields fun key child found => ⟨_, stays' key _ (stays key child found), ?_⟩
      exact ih key child found (below' key _ (stays key child found))

theorem fillAt {fill : Node → Node} (fills : ∀ here : Node, here.IsKeptIn (fill here))
    (template : Node) (key : String) (field : Node) :
    template.IsKeptIn (template.fillAt fill key field) := by
  obtain ⟨value, annotations, source⟩ := template
  cases value with
  | list items =>
    unfold Node.fillAt
    dsimp only
    split
    · next position index =>
      refine .list (List.length_modify _ _ _).symm fun i item item' found found' => ?_
      rw [List.getElem?_modify, found] at found'
      obtain rfl := Option.some.inj found'
      dsimp only
      split
      · exact fills item
      · exact .refl item
    · exact .refl _
  | map fields =>
    unfold Node.fillAt
    dsimp only
    split
    · next here known =>
      refine .of_fields fun name child found => ?_
      rw [Fields.find?_insert]
      split
      · next same =>
        rw [← same, known, Option.some.injEq] at found
        exact ⟨_, rfl, found ▸ fills here⟩
      · exact ⟨child, found, .refl child⟩
    · next absent =>
      split
      · refine .of_fields fun name child found => ⟨child, ?_, .refl child⟩
        rw [Fields.find?_insert, if_neg, found]
        rintro rfl
        rw [absent] at found
        cases found
      · exact .refl _
  | _ =>
    rw [fillAt_leaf (by simp) (by simp)]
    exact .refl _

/-- Filling keeps the template. -/
theorem filled (template stub : Node) : template.IsKeptIn (template.filled stub) := by
  induction stub using Node.treeInduction generalizing template with
  | list items annotations source ih =>
    rw [Node.filled_of_not_map (by simp)]
    exact .refl template
  | map fields annotations source ih =>
    rw [Node.filled]
    induction fields generalizing template with
    | nil =>
      rw [filledByFields]
      exact .refl template
    | cons field rest others =>
      obtain ⟨fills, further⟩ := List.forall_mem_cons.mp ih
      rw [filledByFields]
      exact (fillAt fills template field.1 field.2).trans (others further _)
  | leaf value annotations source notList notMap =>
    rw [Node.filled_of_not_map notMap]
    exact .refl template

theorem foldl_filled (template : Node) (stubs : List Node) :
    template.IsKeptIn (stubs.foldl Node.filled template) := by
  induction stubs generalizing template with
  | nil => exact .refl template
  | cons stub rest ih => exact (filled template stub).trans (ih _)

end Node.IsKeptIn

/-! ### Stubs one after the other -/

/-- A field of a map after several stubs, by what the map and the stubs have under its name: the
field of the map, filled, or else the first one that is offered, filled by those after it. -/
def Node.supplied : Option Node → List Node → Option Node
  | some here, fields => some (fields.foldl filled here)
  | none, [] => none
  | none, first :: later =>
    if first.isOffered then some (later.foldl filled first) else supplied none later

theorem Node.foldl_fillField (present : Option Node) (stubs : List Node) (key : String) :
    stubs.foldl (fun here stub => fillField filled here (stub.field? key)) present =
      supplied present (stubs.filterMap (·.field? key)) := by
  induction stubs generalizing present with
  | nil => cases present <;> simp [supplied]
  | cons stub rest ih =>
    rw [List.foldl_cons, ih, List.filterMap_cons]
    cases stub.field? key with
    | none => cases present <;> rfl
    | some field =>
      dsimp only
      cases present with
      | some here => rw [fillField, supplied, supplied, List.foldl_cons]
      | none =>
        rw [fillField, supplied]
        split
        · rw [supplied]
        · rfl

/-- A map is filled by every stub field by field, also by one that is no map. -/
theorem Node.filled_map {fields : Fields Node} {stub : Node} (annotations : Annotations)
    (source : String) (sorted : fields.Sorted) (offered : stub.Ordered) :
    ∃ all : Fields Node, all.Sorted ∧
      (Node.mk (.map fields) annotations source).filled stub = ⟨.map all, annotations, source⟩ ∧
      ∀ key, Fields.find? all key =
        fillField filled (Fields.find? fields key) (stub.field? key) := by
  have unfilled : (∀ extra, stub.value ≠ .map extra) → ∀ key,
      fillField filled (Fields.find? fields key) (stub.field? key) = Fields.find? fields key := by
    intro notMap key
    have absent : stub.field? key = none := by
      unfold field?
      split
      · next extra shape => exact absurd shape (notMap extra)
      · rfl
    rw [absent]
    cases Fields.find? fields key <;> rfl
  cases offered with
  | list entries =>
    exact ⟨fields, sorted, filled_of_not_map (by simp), fun key => (unfilled (by simp) key).symm⟩
  | map sorted' below => exact isFill_filled.fields annotations _ source _ sorted sorted'
  | leaf notList notMap =>
    exact ⟨fields, sorted, filled_of_not_map notMap, fun key => (unfilled notMap key).symm⟩

theorem Node.foldl_filled_map {fields : Fields Node} {stubs : List Node} (annotations : Annotations)
    (source : String) (sorted : fields.Sorted) (offered : ∀ stub ∈ stubs, stub.Ordered) :
    ∃ all : Fields Node,
      stubs.foldl filled ⟨.map fields, annotations, source⟩ = ⟨.map all, annotations, source⟩ ∧
      ∀ key, Fields.find? all key =
        supplied (Fields.find? fields key) (stubs.filterMap (·.field? key)) := by
  suffices each : ∃ all : Fields Node,
      stubs.foldl filled ⟨.map fields, annotations, source⟩ = ⟨.map all, annotations, source⟩ ∧
      ∀ key, Fields.find? all key =
        stubs.foldl (fun here stub => fillField filled here (stub.field? key))
          (Fields.find? fields key) by
    simpa only [foldl_fillField] using each
  induction stubs generalizing fields with
  | nil => exact ⟨fields, rfl, fun _ => rfl⟩
  | cons stub rest ih =>
    obtain ⟨here, later⟩ := List.forall_mem_cons.mp offered
    obtain ⟨between, sorted, first, step⟩ := filled_map annotations source sorted here
    obtain ⟨all, filled, each⟩ := ih sorted later
    refine ⟨all, ?_, fun key => ?_⟩
    · rw [List.foldl_cons, first, filled]
    · rw [each, step, List.foldl_cons]

theorem injected_eq_foldl (defaultKey : String) {template : Node} {stubs : List Node}
    (ordered : template.Ordered) (offered : ∀ stub ∈ stubs, stub.Ordered) :
    injected defaultKey template stubs = stubs.foldl Node.filled template := by
  induction stubs generalizing template with
  | nil => rfl
  | cons stub rest ih =>
    obtain ⟨here, later⟩ := List.forall_mem_cons.mp offered
    have first : insertAbsent defaultKey template [] stub = template.filled stub :=
      (Node.Hole.nil defaultKey).insertAbsent ordered here
    rw [List.foldl_cons, ← ih (ordered.filled here) later, ← first]
    rfl

/-- What stubs add to a template is the fill by one stub after the other, in order of precedence.
Every value of the template is kept. A field that the template lacks comes from the first stub that
offers it, filled by the fields of that name of the stubs after it; one that no stub offers is not
added. -/
theorem injected_eq_filled (defaultKey : String) {template : Node} {stubs : List Node}
    (ordered : template.Ordered) (offered : ∀ stub ∈ stubs, stub.Ordered) :
    Node.IsFill Node.filled ∧
      injected defaultKey template stubs = stubs.foldl Node.filled template ∧
      template.IsKeptIn (injected defaultKey template stubs) ∧
      ∀ (fields : Fields Node) (annotations : Annotations) (source : String),
        template = ⟨.map fields, annotations, source⟩ → ∃ all : Fields Node,
          injected defaultKey template stubs = ⟨.map all, annotations, source⟩ ∧
          ∀ key, Fields.find? all key =
            Node.supplied (Fields.find? fields key) (stubs.filterMap (·.field? key)) := by
  have same := injected_eq_foldl defaultKey ordered offered
  refine ⟨Node.isFill_filled, same, ?_, ?_⟩
  · rw [same]
    exact .foldl_filled template stubs
  · rintro fields annotations source rfl
    rw [same]
    cases ordered with
    | map sorted below => exact Node.foldl_filled_map annotations source sorted offered
    | leaf notList notMap => exact absurd rfl (notMap _)

/-- A list of a map. -/
def shortList : Node := .plain (.list [.plain (.map [("a", .plain (.int 1) "t")]) "t"]) "t"

/-- A template with a list. -/
def listTemplate : Node := .plain (.map [("l", shortList)]) "t"

/-- A map that offers a field to the first entry of a list. -/
def entryFields : Node :=
  ⟨.map [("0", .plain (.map [("x", ⟨.int 5, { inject := true }, "s"⟩)]) "s")],
    { default := true }, "s"⟩

/-- A stub without lists. -/
def indexedStub : Node := .plain (.map [("l", entryFields)]) "s"

/-- A stub with a field that is offered to a template, and fields that are not. -/
def fieldStub : Node :=
  .plain (.map [("l", .plain (.int 3) "s"), ("m", ⟨.int 7, { default := true }, "s"⟩),
    ("n", .plain (.int 8) "s")]) "s"

theorem ordered_singleton {name : String} {field : Node} {annotations : Annotations}
    {source : String} (ordered : field.Ordered) :
    (Node.mk (.map [(name, field)]) annotations source).Ordered :=
  .map (List.pairwise_singleton _ _) (List.forall_mem_singleton.mpr ordered)

theorem ordered_listTemplate : listTemplate.Ordered := by
  have leaf : (Node.plain (.int 1) "t").Ordered := .leaf (by simp) (by simp)
  exact ordered_singleton (.list (List.forall_mem_singleton.mpr (ordered_singleton leaf)))

theorem ordered_indexedStub : indexedStub.Ordered := by
  have leaf : (Node.mk (.int 5) { inject := true } "s").Ordered := .leaf (by simp) (by simp)
  exact ordered_singleton (ordered_singleton (ordered_singleton leaf))

theorem ordered_fieldStub : fieldStub.Ordered := by
  refine .map (by decide) fun field member => ?_
  simp only [List.mem_cons, List.not_mem_nil, or_false] at member
  rcases member with rfl | rfl | rfl <;> exact .leaf (by simp) (by simp)

/-- The list gets a field in its entry, and the template the field that is offered. -/
theorem injected_eq_filled_listTemplate :
    listTemplate.Ordered ∧ (∀ stub ∈ [indexedStub, fieldStub], stub.Ordered) ∧
      listTemplate.IsKeptIn (injected "name" listTemplate [indexedStub, fieldStub]) ∧
      (injected "name" listTemplate [indexedStub, fieldStub]).field? "m" =
        some ⟨.int 7, { default := true }, "s"⟩ ∧
      (injected "name" listTemplate [indexedStub, fieldStub]).field? "n" = none := by
  have offered : ∀ stub ∈ [indexedStub, fieldStub], stub.Ordered :=
    List.forall_mem_cons.mpr ⟨ordered_indexedStub, List.forall_mem_singleton.mpr ordered_fieldStub⟩
  obtain ⟨-, -, kept, parts⟩ := injected_eq_filled "name" ordered_listTemplate offered
  obtain ⟨all, result, each⟩ := parts _ _ _ rfl
  refine ⟨ordered_listTemplate, offered, kept, ?_, ?_⟩
  · rw [result, Node.field?_map, each]
    rfl
  · rw [result, Node.field?_map, each]
    rfl

/-- Maps are filled field by field, and nothing else is changed. -/
structure Node.IsMapFill (fill : Node → Node → Node) : Prop where
  fields : FillsFields fill
  other : ∀ {template stub : Node},
    (∀ fields, template.value ≠ .map fields) ∨ (∀ fields, stub.value ≠ .map fields) →
      fill template stub = template

/-- What stubs add is no fill of maps alone, even if the stubs have no lists: a stub reaches the
entries of a list of the template by their indices. -/
theorem not_isMapFill_injected : listTemplate.Ordered ∧ indexedStub.Ordered ∧
    ¬∃ fill, Node.IsMapFill fill ∧
      injected "name" listTemplate [indexedStub] = [indexedStub].foldl fill listTemplate := by
  refine ⟨ordered_listTemplate, ordered_indexedStub, ?_⟩
  rintro ⟨fill, fills, same⟩
  have sorted : ∀ node : Node, Fields.Sorted [("l", node)] := fun _ => List.pairwise_singleton _ _
  obtain ⟨all, -, filled, each⟩ :=
    fills.fields {} {} "t" "s" (sorted shortList) (sorted entryFields)
  have kept : Fields.find? all "l" = some shortList :=
    (each "l").trans (congrArg some (fills.other (.inl (by simp [shortList, Node.plain]))))
  have seen : (injected "name" listTemplate [indexedStub]).field? "l" = some shortList := by
    rw [same.trans filled]
    exact kept
  have grown : (injected "name" listTemplate [indexedStub]).field? "l" =
      some (.plain (.list [.plain (.map [("a", .plain (.int 1) "t"),
        ("x", ⟨.int 5, { inject := true }, "s"⟩)]) "t"]) "t") := rfl
  rw [grown] at seen
  cases seen

end Cascade
