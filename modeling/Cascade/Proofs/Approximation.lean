import Cascade.Proofs.Convergence

/-!
# Approximations of documents

A tree approximates another one if they differ only where the first one still has an expression:
there the second one may have anything, or nothing at all. Whatever an ordinary expression finds out
over the first tree it finds out over the second one too, and whatever fails there fails here, since
an expression on the way of a reference leaves it pending. Nothing is said of what is pending, so
the diagnostics of the two trees need not agree.

One field of the documents may be hidden: no reference leads to it, and so the trees may differ in
it.

## Main definitions

* `Informs`: a value is final, a failure stays a failure, and what is pending may become anything.
* `Approximates`: the relation of trees; `ApproximatesApart`: that of documents with a hidden field.
* `Scope.Shows`: the root and the enclosing names that references in a scope see.

## Main statements

* `valueAlong_informs`, `resolve_informs`: references in an approximation inform.
* `evaluate_informs`: and so do ordinary expressions.
-/

namespace Cascade

open Eval

/-! ### Outcomes that inform -/

/-- Whether an outcome without a value is a failure, or may still become anything. -/
def Unresolved.verdict (u : Unresolved) : UnresolvedKind :=
  if u.isError then .localError else .unresolved

instance : IsGrade Unresolved.verdict where
  localError_iff u := by
    unfold Unresolved.verdict
    cases u.isError <;> simp

/-- A value is final, a failure stays a failure, and what is pending may become anything. -/
abbrev Informs {α : Type} (o o' : Except Unresolved α) : Prop :=
  Advances Unresolved.verdict True True o o'

namespace Informs

variable {α : Type} {u u' : Unresolved} {o : Except Unresolved α} {a : α}

theorem refl (o : Except Unresolved α) : Informs o o := Advances.refl trivial o

theorem of_pending (pending : u.isError = false) : Informs (.error u) o :=
  .waiting trivial (by rw [Unresolved.verdict, pending]; rfl) trivial o

theorem of_errors (fails : u.isError = true) (fails' : u'.isError = true) :
    Informs (α := α) (.error u) (.error u') :=
  .failing trivial (IsGrade.ne_unresolved_of_isError fails)
    (by rw [Unresolved.verdict, Unresolved.verdict, fails, fails'])

theorem eq_ok (informs : Informs (.ok a) o) : o = .ok a := by
  cases informs
  rfl

end Informs

theorem isError_blockage {name : String} {kind : UnresolvedKind} :
    (blockage name kind).isError = false := by
  unfold blockage
  split <;> rfl

/-! ### Maps by their keys -/

namespace Fields

variable {α : Type} {keys : List String} {child other : String → Option α}

/-- The fields of some names, in their order; names without a value are left out. -/
def pick (keys : List String) (child : String → Option α) : Fields α :=
  keys.filterMap fun key => (child key).map fun value => (key, value)

theorem mem_pick {field : String × α} :
    field ∈ pick keys child ↔ field.1 ∈ keys ∧ child field.1 = some field.2 := by
  rw [pick, List.mem_filterMap]
  constructor
  · rintro ⟨key, member, picked⟩
    obtain ⟨value, known, rfl⟩ := Option.map_eq_some_iff.mp picked
    exact ⟨member, known⟩
  · rintro ⟨member, known⟩
    exact ⟨field.1, member, by rw [known]; rfl⟩

theorem keys_pick_sublist : (Fields.keys (pick keys child)).Sublist keys := by
  rw [pick, Fields.keys]
  induction keys with
  | nil => exact .slnil
  | cons key rest ih =>
    rw [List.filterMap_cons]
    cases child key with
    | none => exact ih.cons key
    | some value => exact ih.cons_cons key

theorem find?_pick (key : String) :
    find? (pick keys child) key = if key ∈ keys then child key else none := by
  induction keys with
  | nil => rfl
  | cons first rest ih =>
    have step : pick (first :: rest) child =
        ((child first).map fun value => (first, value)).toList ++ pick rest child := by
      rw [pick, List.filterMap_cons]
      cases child first <;> rfl
    rw [step]
    by_cases same : first = key
    · subst same
      rw [if_pos List.mem_cons_self]
      cases known : child first with
      | some value => exact if_pos rfl
      | none =>
        rw [known, ite_self] at ih
        exact ih
    · have others : (if key ∈ first :: rest then child key else none) =
          if key ∈ rest then child key else none := by
        simp only [List.mem_cons, Ne.symm same, false_or]
      rw [others, ← ih]
      cases child first with
      | some value => exact if_neg same
      | none => rfl

theorem pick_congr (same : ∀ key ∈ keys, child key = other key) :
    pick keys child = pick keys other :=
  List.filterMap_congr fun key member => by rw [same key member]

/-- What becomes of picked fields. -/
theorem filterMap_pick {β : Type} (become : String → α → Option β) :
    ((pick keys child).filterMap fun field =>
      (become field.1 field.2).map fun value => (field.1, value)) =
      pick keys fun key => (child key).bind (become key) := by
  rw [pick, List.filterMap_filterMap, pick]
  refine List.filterMap_congr fun key _ => ?_
  cases child key <;> rfl

/-- The fields of a map are those of its keys. -/
theorem pick_find? {fields : Fields α} (distinct : (Fields.keys fields).Nodup) :
    pick (Fields.keys fields) (find? fields) = fields := by
  have each : ∀ field ∈ fields,
      (find? fields field.1).map (fun value => (field.1, value)) = some field := by
    intro field member
    rw [find?_of_mem distinct member]
    rfl
  rw [pick, Fields.keys, List.filterMap_map]
  exact (List.filterMap_congr each).trans List.filterMap_some

end Fields

/-! ### Trees without tags -/

theorem findTagItems?_eq_none {tag : String} {items : List Node}
    (each : ∀ item ∈ items, item.findTag? tag = none) : findTagItems? tag items = none := by
  induction items with
  | nil => rw [findTagItems?]
  | cons item rest ih =>
    obtain ⟨first, others⟩ := List.forall_mem_cons.mp each
    rw [findTagItems?, first, Option.none_or]
    exact ih others

theorem findTagFields?_eq_none {tag : String} {fields : Fields Node}
    (each : ∀ field ∈ fields, field.2.findTag? tag = none) : findTagFields? tag fields = none := by
  induction fields with
  | nil => rw [findTagFields?]
  | cons field rest ih =>
    obtain ⟨first, others⟩ := List.forall_mem_cons.mp each
    rw [findTagFields?, first, Option.none_or]
    exact ih others

/-- A tag that the root of a tree does not carry is found below it, if at all. -/
theorem Node.findTag?_of_untagged {tag : String} {node : Node}
    (untagged : node.annotations.tag = none) : node.findTag? tag = node.value.findTag? tag := by
  obtain ⟨value, annotations, source⟩ := node
  rw [findTag?]
  exact if_neg (by rw [show annotations.tag = none from untagged]; simp)

/-- No node of a simple tree carries a tag. -/
theorem Node.findTag?_of_isSimple {tag : String} {node : Node} (simple : node.isSimple = true) :
    node.findTag? tag = none := by
  induction node using Node.treeInduction with
  | list items annotations source ih =>
    obtain ⟨rfl, inside⟩ := isSimple_iff.mp simple
    rw [findTag?_of_untagged rfl, Value.findTag?, findTagItems?_eq_none]
    exact fun item member => ih item member (Value.isSimple_list.mp inside item member)
  | map fields annotations source ih =>
    obtain ⟨rfl, inside⟩ := isSimple_iff.mp simple
    rw [findTag?_of_untagged rfl, Value.findTag?, findTagFields?_eq_none]
    exact fun field member => ih field member (Value.isSimple_map.mp inside field member).2
  | leaf value annotations source notList notMap =>
    obtain ⟨rfl, -⟩ := isSimple_iff.mp simple
    rw [findTag?_of_untagged rfl]
    cases value with
    | list items => exact absurd rfl (notList items)
    | map fields => exact absurd rfl (notMap fields)
    | _ => rfl

theorem Node.findTag?_of_expr? {tag : String} {node : Node} {e : Expr}
    (written : node.expr? = some e) (untagged : node.annotations.tag = none) :
    node.findTag? tag = none := by
  rw [findTag?_of_untagged untagged]
  obtain ⟨value, annotations, source⟩ := node
  cases value with
  | list items => cases written
  | map fields => cases written
  | _ => rfl

/-! ### Trees that approximate others -/

/-- The trees differ only where the first one still has an expression; there the second one has
anything, or nothing. -/
inductive Approximates : Option Node → Option Node → Prop
  | absent : Approximates none none
  | simple {node : Node} (simple : node.isSimple = true) : Approximates (some node) (some node)
  | expression {node : Node} {e : Expr} (written : node.expr? = some e)
    (clear : node.annotations.clearIssue = {}) (later : Option Node) :
    Approximates (some node) later
  | map {keys : List String} {now later : String → Option Node} {source : String}
    (plain : ∀ key ∈ keys, controlSuffix? key = none)
    (inside : ∀ key ∈ keys, Approximates (now key) (later key)) :
    Approximates (some ⟨.map (Fields.pick keys now), {}, source⟩)
      (some ⟨.map (Fields.pick keys later), {}, source⟩)

namespace Approximates

variable {x y z w : Option Node} {node later : Node} {defaultKey : String}

theorem eq_none (approximates : Approximates none y) : y = none := by
  cases approximates
  rfl

/-- Only where an expression stands there may be nothing later. -/
theorem exists_expr (approximates : Approximates (some node) none) :
    ∃ e, node.expr? = some e := by
  cases approximates with
  | expression written => exact ⟨_, written⟩

/-- Names are found where they are found first. -/
theorem or (first : Approximates x y) (second : Approximates z w) :
    Approximates (x.or z) (y.or w) := by
  cases first with
  | absent => exact second
  | simple simple => exact .simple simple
  | expression written clear later => exact .expression written clear _
  | map plain inside => exact .map plain inside

theorem field? {keys : List String} {now next : String → Option Node}
    (inside : ∀ key ∈ keys, Approximates (now key) (next key)) (key : String) :
    Approximates (Fields.find? (Fields.pick keys now) key)
      (Fields.find? (Fields.pick keys next) key) := by
  rw [Fields.find?_pick, Fields.find?_pick]
  split
  · next member => exact inside key member
  · exact .absent

/-- Where the approximation is resolved, it is simple, and the trees are equal. -/
theorem eq_of_isResolved (approximates : Approximates x y) :
    ∀ node, x = some node → node.isResolved = true → node.isSimple = true ∧ y = some node := by
  induction approximates with
  | absent => exact fun _ => nofun
  | simple simple =>
    rintro _ ⟨⟩ -
    exact ⟨simple, rfl⟩
  | expression written =>
    rintro _ ⟨⟩ resolved
    rw [Node.not_isResolved_of_expr? written] at resolved
    cases resolved
  | @map keys now later source plain inside ih =>
    rintro _ ⟨⟩ resolved
    rw [Node.isResolved_map_iff] at resolved
    have each : ∀ key ∈ keys, ∀ child, now key = some child →
        child.isSimple = true ∧ later key = some child := fun key member child known =>
      ih key member child known (resolved (key, child) (Fields.mem_pick.mpr ⟨member, known⟩))
    constructor
    · rw [Node.isSimple_iff, Value.isSimple_map]
      refine ⟨rfl, fun field member => ?_⟩
      obtain ⟨known, picked⟩ := Fields.mem_pick.mp member
      exact ⟨plain _ known, (each _ known _ picked).1⟩
    · rw [Fields.pick_congr fun key member => ?_]
      cases known : now key with
      | none => exact (known ▸ inside key member).eq_none
      | some child => exact (each key member child known).2

/-- The nodes of an approximation approximate something. -/
theorem lookup? {path : List String} {found : Node} (approximates : Approximates x y) :
    ∀ node, x = some node → node.lookup? path defaultKey = some found →
      ∃ later, Approximates (some found) later := by
  induction approximates generalizing path with
  | absent => exact fun _ => nofun
  | simple simple =>
    rintro _ ⟨⟩ finds
    exact ⟨_, .simple (Node.isSimple_of_lookup? simple finds)⟩
  | expression written clear later =>
    rintro _ ⟨⟩ finds
    cases path with
    | nil =>
      cases finds
      exact ⟨later, .expression written clear later⟩
    | cons segment rest =>
      rw [Node.lookup?_cons_of_expr? written] at finds
      cases finds
  | @map keys now later source plain inside ih =>
    rintro _ ⟨⟩ finds
    cases path with
    | nil =>
      cases finds
      exact ⟨_, .map plain inside⟩
    | cons segment rest =>
      rw [Node.lookup?_map_cons] at finds
      obtain ⟨child, step, onward⟩ := Option.bind_eq_some_iff.mp finds
      obtain ⟨member, picked⟩ := Fields.mem_pick.mp (Fields.mem_of_find? step)
      exact ih segment member child picked onward

/-- What is no expression in an approximation stands in the other tree as well. -/
theorem exists_lookup? {path : List String} {found : Node} (approximates : Approximates x y) :
    ∀ node, x = some node → node.lookup? path defaultKey = some found → found.expr? = none →
      ∃ next later, y = some next ∧ next.lookup? path defaultKey = some later ∧
        Approximates (some found) (some later) := by
  induction approximates generalizing path with
  | absent => exact fun _ => nofun
  | simple simple =>
    rintro _ ⟨⟩ finds -
    exact ⟨_, found, rfl, finds, .simple (Node.isSimple_of_lookup? simple finds)⟩
  | expression written =>
    rintro _ ⟨⟩ finds none
    cases path with
    | nil =>
      cases finds
      rw [written] at none
      cases none
    | cons segment rest =>
      rw [Node.lookup?_cons_of_expr? written] at finds
      cases finds
  | @map keys now later source plain inside ih =>
    rintro _ ⟨⟩ finds none
    cases path with
    | nil =>
      cases finds
      exact ⟨_, _, rfl, rfl, .map plain inside⟩
    | cons segment rest =>
      rw [Node.lookup?_map_cons] at finds
      obtain ⟨child, step, onward⟩ := Option.bind_eq_some_iff.mp finds
      obtain ⟨member, picked⟩ := Fields.mem_pick.mp (Fields.mem_of_find? step)
      obtain ⟨next, last, known, reaches, approximates⟩ :=
        ih segment member child picked onward none
      refine ⟨_, last, rfl, ?_, approximates⟩
      rw [Node.lookup?_map_cons, Fields.find?_pick, if_pos member, known]
      exact reaches

theorem expr?_eq_none (approximates : Approximates (some node) (some later))
    (none : node.expr? = none) : later.expr? = .none := by
  cases approximates with
  | simple simple => exact none
  | expression written =>
    rw [written] at none
    cases none
  | map plain inside => rfl

/-- No node of an approximation carries a tag. -/
theorem findTag? (approximates : Approximates x y) (tag : String) :
    ∀ node, x = some node → node.findTag? tag = none := by
  induction approximates with
  | absent => exact fun _ => nofun
  | simple simple =>
    rintro _ ⟨⟩
    exact Node.findTag?_of_isSimple simple
  | expression written clear later =>
    rintro _ ⟨⟩
    exact Node.findTag?_of_expr? written (congrArg Annotations.tag clear)
  | @map keys now later source plain inside ih =>
    rintro _ ⟨⟩
    rw [Node.findTag?_of_untagged rfl, Value.findTag?, findTagFields?_eq_none]
    intro field member
    obtain ⟨known, picked⟩ := Fields.mem_pick.mp member
    exact ih field.1 known field.2 picked

end Approximates

/-! ### Values along paths -/

section

variable {x y : Option Node} {node : Node} {defaultKey name : String} {seen path : List String}

/-- The value along a path from what has been found, if anything has been. -/
def valueOnward (defaultKey name : String) (found : Option Node) (failure : Failure)
    (seen path : List String) : Except Unresolved Resolved :=
  found.elim (.error (.ofFailure failure)) fun node => valueAlong defaultKey name node seen path

theorem valueAlong_map_eq {fields : Fields Node} {source segment : String} {rest : List String} :
    valueAlong defaultKey name ⟨.map fields, {}, source⟩ seen (segment :: rest) =
      valueOnward defaultKey name (Fields.find? fields segment)
        (.notFound (Path.render (seen ++ [segment])) (suggestions segment (Fields.keys fields)))
        (seen ++ [segment]) rest := by
  rw [valueAlong_map_cons, valueOnward]
  cases Fields.find? fields segment <;> rfl

/-- Looking on from what has been found informs. -/
theorem Informs.onward {failure failure' : Failure} (approximates : Approximates x y)
    (onward : ∀ child next, x = some child → y = some next → Informs
      (valueAlong defaultKey name child seen path) (valueAlong defaultKey name next seen path)) :
    Informs (valueOnward defaultKey name x failure seen path)
      (valueOnward defaultKey name y failure' seen path) := by
  unfold valueOnward
  cases x with
  | none =>
    obtain rfl := approximates.eq_none
    exact .of_errors rfl rfl
  | some child =>
    cases y with
    | some next => exact onward child next rfl rfl
    | none =>
      obtain ⟨e, written⟩ := approximates.exists_expr
      rw [Option.elim_some, valueAlong_of_expr? written]
      exact .of_pending isError_blockage

/-- Paths in an approximation inform those in the other tree. -/
theorem valueAlong_informs (approximates : Approximates x y) :
    ∀ child next, x = some child → y = some next → ∀ seen path, Informs
      (valueAlong defaultKey name child seen path) (valueAlong defaultKey name next seen path) := by
  induction approximates with
  | absent => exact fun _ _ => nofun
  | simple simple =>
    rintro _ _ ⟨⟩ ⟨⟩ seen path
    exact .refl _
  | expression written clear later =>
    rintro _ next ⟨⟩ - seen path
    rw [valueAlong_of_expr? written]
    exact .of_pending isError_blockage
  | @map keys now later source plain inside ih =>
    rintro _ _ ⟨⟩ ⟨⟩ seen path
    cases path with
    | nil =>
      cases resolved : (Node.mk (.map (Fields.pick keys now)) {} source).isResolved with
      | true =>
        obtain ⟨-, same⟩ := (Approximates.map plain inside).eq_of_isResolved _ rfl resolved
        rw [Option.some.inj same]
        exact .refl _
      | false =>
        rw [valueAlong_map_nil resolved]
        exact .of_pending rfl
    | cons segment rest =>
      rw [valueAlong_map_eq, valueAlong_map_eq]
      refine .onward (Approximates.field? inside segment) fun child next here there => ?_
      rw [Fields.find?_pick] at here there
      by_cases member : segment ∈ keys
      · rw [if_pos member] at here there
        exact ih segment member child next here there _ rest
      · rw [if_neg member] at here
        cases here

/-- A value along a path in an approximation is simple. -/
theorem isSimple_of_valueAlong {resolved : Resolved} (approximates : Approximates (some node) y)
    (value : valueAlong defaultKey name node seen path = .ok resolved) : resolved.IsSimple := by
  unfold valueAlong at value
  cases walks : walkPath defaultKey node seen path with
  | error u =>
    rw [walks] at value
    cases value
  | ok found =>
    rw [walks] at value
    change nodeValue name found false = _ at value
    obtain ⟨later, known⟩ := approximates.lookup? node rfl (lookup_of_walkPath walks)
    rw [nodeValue] at value
    cases available : checkAvailable name found with
    | error u =>
      rw [available] at value
      cases value
    | ok _ =>
      rw [available] at value
      cases whole : found.isResolved with
      | false =>
        rw [whole] at value
        cases value
      | true =>
        rw [whole] at value
        cases value
        obtain ⟨simple, -⟩ := known.eq_of_isResolved found rfl whole
        exact Resolved.isSimple_ofValue (Node.isSimple_iff.mp simple).2

end

/-- Two outcomes are those along one path from nodes that approximate each other, or failures to
find such nodes. -/
def GoAlong (defaultKey name : String) (o o' : Except Unresolved Resolved) : Prop :=
  ∃ (x y : Option Node) (failure failure' : Failure) (seen path : List String),
    Approximates x y ∧ o = valueOnward defaultKey name x failure seen path ∧
    o' = valueOnward defaultKey name y failure' seen path

namespace GoAlong

variable {defaultKey name : String} {o o' : Except Unresolved Resolved}

theorem fail (failure failure' : Failure) :
    GoAlong defaultKey name (.error (.ofFailure failure)) (.error (.ofFailure failure')) :=
  ⟨none, none, failure, failure', [], [], .absent, rfl, rfl⟩

theorem informs (along : GoAlong defaultKey name o o') : Informs o o' := by
  obtain ⟨x, y, failure, failure', seen, path, approximates, rfl, rfl⟩ := along
  exact .onward approximates fun child next here there =>
    valueAlong_informs approximates child next here there seen path

theorem isSimple {resolved : Resolved} (along : GoAlong defaultKey name o o')
    (value : o = .ok resolved) : resolved.IsSimple := by
  obtain ⟨x, y, failure, failure', seen, path, approximates, rfl, -⟩ := along
  cases x with
  | none => cases value
  | some node => exact isSimple_of_valueAlong approximates value

end GoAlong

/-! ### Documents with a hidden field -/

/-- The documents are maps, and apart from a hidden field the fields of the first one are related to
those of the second one. -/
inductive RelatedApart (R : Option Node → Option Node → Prop) (hidden : String) : Node → Node → Prop
  | intro {keys : List String} {now later : String → Option Node} {source : String}
    (inside : ∀ key ∈ keys, key ≠ hidden → R (now key) (later key)) :
    RelatedApart R hidden ⟨.map (Fields.pick keys now), {}, source⟩
      ⟨.map (Fields.pick keys later), {}, source⟩

/-- Apart from a hidden field the fields of the first document approximate those of the second one.
-/
abbrev ApproximatesApart := RelatedApart Approximates

section

variable {R : Option Node → Option Node → Prop} {hidden key : String} {root root' : Node}

theorem RelatedApart.source (related : RelatedApart R hidden root root') :
    root'.source = root.source := by
  cases related
  rfl

/-- A visible field is related to the one of that name. -/
theorem RelatedApart.field? (related : RelatedApart R hidden root root') (absent : R none none)
    (visible : key ≠ hidden) : R (root.field? key) (root'.field? key) := by
  cases related with
  | intro inside =>
    rw [Node.field?_map, Node.field?_map, Fields.find?_pick, Fields.find?_pick]
    split
    · next member => exact inside key member visible
    · exact absent

end

/-- A visible field approximates the one of that name. -/
theorem ApproximatesApart.field? {hidden key : String} {root root' : Node}
    (approximates : ApproximatesApart hidden root root') (visible : key ≠ hidden) :
    Approximates (root.field? key) (root'.field? key) :=
  RelatedApart.field? approximates .absent visible

/-- A path through a visible field goes on from there. -/
theorem ApproximatesApart.valueAlong {hidden key defaultKey name : String} {rest : List String}
    {root root' : Node} (approximates : ApproximatesApart hidden root root')
    (visible : key ≠ hidden) : GoAlong defaultKey name
      (Cascade.valueAlong defaultKey name root [] (key :: rest))
      (Cascade.valueAlong defaultKey name root' [] (key :: rest)) := by
  have field := approximates.field? visible
  cases approximates with
  | intro inside => exact ⟨_, _, _, _, [key], rest, field, valueAlong_map_eq, valueAlong_map_eq⟩

/-! ### References -/

/-- What references in a scope see: the root of the outermost document, which has neither tags nor
stubs, and for each name the innermost node that it means. -/
structure Scope.Shows (defaultKey : String) (scope : Scope) (root : Node)
    (found : String → Option Node) : Prop where
  relative : ∀ first rest definition, ∃ similar,
    Reference.search defaultKey first rest definition scope =
      (found first).elim (.error (.ofFailure (.notFound first similar))) fun node =>
        walkPath defaultKey node [first] rest
  topmost : scope.rootScope.document.root = root
  noStubs : scope.rootScope.document.stubs = []
  untagged : ∀ tag, root.findTag? tag = none

/-- What is seen from the first scope approximates what is seen from the second one, apart from a
hidden name. -/
inductive Scope.Approximates (defaultKey hidden : String) (scope scope' : Scope) : Prop
  | intro {root root' : Node} {found found' : String → Option Node}
    (here : scope.Shows defaultKey root found) (there : scope'.Shows defaultKey root' found')
    (roots : ApproximatesApart hidden root root')
    (names : ∀ name, name ≠ hidden → Cascade.Approximates (found name) (found' name))

/-- The reference has a path, which does not mention the name. -/
def Reference.avoids (hidden : String) (r : Reference) : Bool :=
  !r.path.isEmpty && !r.path.contains hidden

/-- Where references start depends on them alone: at the root of the document, at the innermost node
of a name, or nowhere. -/
theorem Scope.Shows.resolve (defaultKey : String) (r : Reference) :
    (∀ {scope root found}, Scope.Shows defaultKey scope root found →
      r.resolve scope defaultKey false = valueAlong defaultKey r.render root [] r.path) ∨
    (∃ first rest, r.path = first :: rest ∧
      ∀ {scope root found}, Scope.Shows defaultKey scope root found → ∃ similar,
        r.resolve scope defaultKey false = valueOnward defaultKey r.render (found first)
          (.notFound first similar) [first] rest) ∨
    ∃ failure, ∀ {scope root found}, Scope.Shows defaultKey scope root found →
      r.resolve scope defaultKey false = .error (.ofFailure failure) := by
  unfold Reference.resolve Reference.find
  cases r.tag with
  | none =>
    dsimp only
    split
    · exact .inl fun shown => by rw [shown.topmost]; rfl
    · cases r.path with
      | nil => exact .inr (.inr ⟨_, fun _ => rfl⟩)
      | cons first rest =>
        refine .inr (.inl ⟨first, rest, rfl, fun {scope root found} shown => ?_⟩)
        obtain ⟨similar, searched⟩ :=
          shown.relative first rest (Reference.findRelative defaultKey rest)
        refine ⟨similar, ?_⟩
        rw [Reference.findRelative, searched]
        cases found first <;> rfl
  | some tag =>
    simp only [Reference.findTagged]
    split
    · exact .inl fun shown => by rw [shown.topmost]; rfl
    · cases documentNumber? tag with
      | some number =>
        cases number with
        | zero => exact .inl fun shown => by rw [shown.topmost]; rfl
        | succ number => exact .inr (.inr ⟨_, fun shown => by rw [shown.noStubs]; rfl⟩)
      | none =>
        refine .inr (.inr ⟨.custom ("tag '" ++ tag ++ "' not found"),
          fun {scope root found} shown => ?_⟩)
        have nowhere : scope.rootScope.document.findTag? tag = none := by
          rw [Document.findTag?, shown.topmost, shown.noStubs]
          exact findTagItems?_eq_none (by simpa using shown.untagged tag)
        simp only [nowhere]
        rfl

section

variable {defaultKey hidden : String} {scope scope' : Scope} {r : Reference}

theorem Reference.avoids_iff : r.avoids hidden = true ↔
    ∃ first rest, r.path = first :: rest ∧ first ≠ hidden ∧ hidden ∉ rest := by
  unfold avoids
  cases r.path with
  | nil => simp
  | cons first rest => simp [@eq_comm _ hidden]

/-- A reference that avoids the hidden name goes along one path in both scopes. -/
theorem Scope.Approximates.resolve (approximates : scope.Approximates defaultKey hidden scope')
    (avoids : r.avoids hidden = true) :
    GoAlong defaultKey r.render (r.resolve scope defaultKey false)
      (r.resolve scope' defaultKey false) := by
  obtain @⟨root, root', found, found', here, there, roots, names⟩ := approximates
  obtain ⟨first, rest, path, visible, -⟩ := Reference.avoids_iff.mp avoids
  rcases Scope.Shows.resolve defaultKey r with atRoot | ⟨_, _, path', byName⟩ | ⟨failure, nowhere⟩
  · rw [atRoot here, atRoot there, path]
    exact roots.valueAlong visible
  · rw [path] at path'
    cases path'
    obtain ⟨similar, resolved⟩ := byName here
    obtain ⟨similar', resolved'⟩ := byName there
    exact ⟨found first, found' first, _, _, [first], rest, names first visible, resolved, resolved'⟩
  · rw [nowhere here, nowhere there]
    exact .fail _ _

end

/-! ### Scopes in a document -/

section

variable {s : Setting} {root root' node : Node} {place : List String}
  {defaultKey hidden name : String}

theorem shows_scopeAt (alone : s.IsAlone) (untagged : ∀ tag, root.findTag? tag = none) :
    (s.scopeAt root place).Shows defaultKey root
      (Reference.findEnclosing? defaultKey root place) := by
  have top : (s.scopeAt root place).rootScope = s.scopeAt root place := by
    rw [Setting.scopeAt, alone.outermost, Scope.rootScope]
    simp
  refine ⟨fun first rest definition => ?_, congrArg (·.document.root) top, ?_, untagged⟩
  · have noName (name : String) : Scope.findLocal? s.locals name = none := by
      rw [alone.noLocals]
      rfl
    refine ⟨suggestions first (Reference.visibleNames defaultKey (s.scopeAt root place)), ?_⟩
    rw [Setting.scopeAt, alone.outermost, Reference.search, noName, ite_self]
    simp only [noName]
    cases Reference.findEnclosing? defaultKey root place first <;> rfl
  · rw [top]
    exact alone.noStubs

/-- A document inside another one shows its own names before those of the place around it. -/
theorem shows_scopeAt_inside {outer : Scope} {top : Node} {found : String → Option Node}
    (noLocals : s.locals = []) (inside : s.outer = some outer)
    (shown : outer.Shows defaultKey top found) :
    (s.scopeAt node place).Shows defaultKey top fun name =>
      (Reference.findEnclosing? defaultKey node place name).or (found name) := by
  have upward : (s.scopeAt node place).rootScope = outer.rootScope := by
    rw [Setting.scopeAt, inside, Scope.rootScope]
  refine ⟨fun first rest definition => ?_, ?_, ?_, shown.untagged⟩
  · have noName (name : String) : Scope.findLocal? s.locals name = none := by
      rw [noLocals]
      rfl
    obtain ⟨failure, searched⟩ := shown.relative first rest definition
    refine ⟨failure, ?_⟩
    rw [Setting.scopeAt, inside, Reference.search, noName, ite_self]
    simp only [noName]
    cases Reference.findEnclosing? defaultKey node place first with
    | some found => rfl
    | none => exact searched
  · rw [upward, shown.topmost]
  · rw [upward, shown.noStubs]

/-- The maps around a place are there. -/
def Node.Surrounds (defaultKey : String) (root : Node) (place : List String) : Prop :=
  ∀ depth < place.length, ∃ around, root.lookup? (place.take depth) defaultKey = some around ∧
    around.expr? = none

theorem Approximates.field?_of_node {later : Node}
    (approximates : Approximates (some node) (some later)) (none : node.expr? = none) :
    Approximates (node.field? name) (later.field? name) := by
  cases approximates with
  | simple simple =>
    cases field : node.field? name with
    | none => exact .absent
    | some child =>
      have stands : node.lookup? [name] "" = some child := by
        rw [Node.lookup?_cons, Node.step?_of_field? field]
        rfl
      exact .simple (Node.isSimple_of_lookup? simple stands)
  | expression written =>
    rw [written] at none
    cases none
  | map plain inside => exact Approximates.field? inside name

/-- What is found around a place approximates what is found there later. -/
theorem findEnclosing?_approximates
    (each : ∀ depth < place.length, Approximates
      ((root.lookup? (place.take depth) defaultKey).bind (·.field? name))
      ((root'.lookup? (place.take depth) defaultKey).bind (·.field? name))) :
    Approximates (Reference.findEnclosing? defaultKey root place name)
      (Reference.findEnclosing? defaultKey root' place name) := by
  have below : ∀ depth ∈ (List.range place.length).reverse, depth < place.length := by simp
  unfold Reference.findEnclosing?
  generalize (List.range place.length).reverse = depths at below
  induction depths with
  | nil => exact .absent
  | cons depth depths ih =>
    obtain ⟨here, others⟩ := List.forall_mem_cons.mp below
    have split (find : Nat → Option Node) : (depth :: depths).findSome? find =
        (find depth).or (depths.findSome? find) := by
      rw [List.findSome?_cons]
      cases find depth <;> rfl
    rw [split, split]
    exact (each depth here).or (ih others)

theorem Approximates.surrounds (approximates : Approximates (some root) (some root'))
    (around : root.Surrounds defaultKey place) : root'.Surrounds defaultKey place := by
  intro depth below
  obtain ⟨container, stands, none⟩ := around depth below
  obtain ⟨_, later, ⟨⟩, reaches, onward⟩ := approximates.exists_lookup? root rfl stands none
  exact ⟨later, reaches, onward.expr?_eq_none none⟩

theorem Approximates.findEnclosing? (approximates : Approximates (some root) (some root'))
    (around : root.Surrounds defaultKey place) :
    Approximates (Reference.findEnclosing? defaultKey root place name)
      (Reference.findEnclosing? defaultKey root' place name) := by
  refine findEnclosing?_approximates fun depth below => ?_
  obtain ⟨container, stands, none⟩ := around depth below
  obtain ⟨_, later, ⟨⟩, reaches, onward⟩ := approximates.exists_lookup? root rfl stands none
  rw [stands, reaches]
  exact onward.field?_of_node none

/-- Apart from the hidden field and below visible ones, what stands in an approximation stands in
the other document as well. -/
theorem ApproximatesApart.exists_lookup? {key : String} {rest : List String} {found : Node}
    (approximates : ApproximatesApart hidden root root') (visible : key ≠ hidden)
    (stands : root.lookup? (key :: rest) defaultKey = some found) (none : found.expr? = none) :
    ∃ later, root'.lookup? (key :: rest) defaultKey = some later ∧
      Approximates (some found) (some later) := by
  have field := approximates.field? visible
  cases approximates with
  | intro inside =>
    rw [Node.lookup?_map_cons] at stands ⊢
    rw [Node.field?_map, Node.field?_map] at field
    obtain ⟨child, step, onward⟩ := Option.bind_eq_some_iff.mp stands
    obtain ⟨next, later, known, reaches, last⟩ := field.exists_lookup? child step onward none
    rw [known]
    exact ⟨later, reaches, last⟩

theorem ApproximatesApart.surrounds (approximates : ApproximatesApart hidden root root')
    (outside : place.head? ≠ some hidden) (around : root.Surrounds defaultKey place) :
    root'.Surrounds defaultKey place := by
  intro depth below
  cases depth with
  | zero =>
    cases approximates
    exact ⟨_, rfl, rfl⟩
  | succ depth =>
    cases place with
    | nil => cases below
    | cons key rest =>
      obtain ⟨container, stands, none⟩ := around (depth + 1) below
      rw [List.take_succ_cons] at stands ⊢
      obtain ⟨later, reaches, onward⟩ :=
        approximates.exists_lookup? (by simpa using outside) stands none
      exact ⟨later, reaches, onward.expr?_eq_none none⟩

theorem ApproximatesApart.findEnclosing? (approximates : ApproximatesApart hidden root root')
    (outside : place.head? ≠ some hidden) (around : root.Surrounds defaultKey place)
    (visible : name ≠ hidden) :
    Approximates (Reference.findEnclosing? defaultKey root place name)
      (Reference.findEnclosing? defaultKey root' place name) := by
  refine findEnclosing?_approximates fun depth below => ?_
  cases depth with
  | zero => exact approximates.field? visible
  | succ depth =>
    cases place with
    | nil => cases below
    | cons key rest =>
      obtain ⟨container, stands, none⟩ := around (depth + 1) below
      rw [List.take_succ_cons] at stands ⊢
      obtain ⟨later, reaches, onward⟩ :=
        approximates.exists_lookup? (by simpa using outside) stands none
      rw [stands, reaches]
      exact onward.field?_of_node none

theorem findSome?_congr {α β : Type} {items : List α} {f g : α → Option β}
    (same : ∀ item ∈ items, f item = g item) : items.findSome? f = items.findSome? g := by
  induction items with
  | nil => rfl
  | cons item rest ih =>
    obtain ⟨first, others⟩ := List.forall_mem_cons.mp same
    rw [List.findSome?_cons, List.findSome?_cons, first, ih others]

/-- Inside a node, names are found inside it before they are found around it. -/
theorem findEnclosing?_append {inner : Node} {path : List String}
    (stands : root.lookup? place defaultKey = some inner) :
    Reference.findEnclosing? defaultKey root (place ++ path) name =
      (Reference.findEnclosing? defaultKey inner path name).or
        (Reference.findEnclosing? defaultKey root place name) := by
  have depths : (List.range (place ++ path).length).reverse =
      (List.range path.length).reverse.map (place.length + ·) ++
        (List.range place.length).reverse := by
    rw [List.length_append, List.range_add, List.reverse_append, List.map_reverse]
  have inside : ∀ depth ∈ (List.range path.length).reverse,
      (root.lookup? ((place ++ path).take (place.length + depth)) defaultKey).bind (·.field? name) =
        (inner.lookup? (path.take depth) defaultKey).bind (·.field? name) := by
    intro depth _
    rw [List.take_length_add_append, Node.lookup?_append, stands, Option.bind_some]
  have around : ∀ depth ∈ (List.range place.length).reverse,
      (root.lookup? ((place ++ path).take depth) defaultKey).bind (·.field? name) =
        (root.lookup? (place.take depth) defaultKey).bind (·.field? name) := by
    intro depth member
    rw [List.take_append_of_le_length (by simp at member; omega)]
  unfold Reference.findEnclosing?
  rw [depths, List.findSome?_append, List.findSome?_map]
  congr 1
  · exact findSome?_congr inside
  · exact findSome?_congr around

theorem findEnclosing?_withSource {fields : Fields Node} {annotations : Annotations}
    {source : String} (other : String) :
    Reference.findEnclosing? defaultKey ⟨.map fields, annotations, source⟩ place name =
      Reference.findEnclosing? defaultKey ⟨.map fields, annotations, other⟩ place name := by
  unfold Reference.findEnclosing?
  congr 1
  funext depth
  cases place.take depth <;> rfl

/-- A place in an approximation sees what approximates what it sees in the other document. -/
theorem ApproximatesApart.scopeAt (approximates : ApproximatesApart hidden root root')
    (alone : s.IsAlone) (untagged : ∀ tag, root.findTag? tag = none)
    (untagged' : ∀ tag, root'.findTag? tag = none) (outside : place.head? ≠ some hidden)
    (around : root.Surrounds defaultKey place) :
    (s.scopeAt root place).Approximates defaultKey hidden (s.scopeAt root' place) :=
  .intro (shows_scopeAt alone untagged) (shows_scopeAt alone untagged') approximates
    fun _ visible => approximates.findEnclosing? outside around visible

end

/-! ### Expressions -/

/-- The form is that of a part of an ordinary expression; a reference may be of any form that avoids
the hidden name. -/
def Expr.isPartApart (hidden : String) : Expr → Bool
  | .reference r => r.avoids hidden
  | e => e.isOrdinaryPart

/-- The expression consists of literals, operators, and references that avoid the hidden name. -/
def Expr.avoids (hidden : String) (e : Expr) : Bool := e.walk.all (Expr.isPartApart hidden)

section

variable {hidden : String} {e : Expr}

theorem Expr.isPlainPart_of_avoids (avoids : e.avoids hidden = true) :
    ∀ part ∈ e.walk, part.isPlainPart = true := by
  intro part member
  have known := List.all_eq_true.mp avoids part member
  cases part with
  | reference r => rfl
  | _ => exact known

/-- An ordinary expression that avoids the hidden name informs. -/
theorem evaluate_informs {engine : Engine} {deeper deeper' : Deeper} {b b' : Binding} {later : Scope}
    (source : b'.source = b.source)
    (approximates : b.scope.Approximates engine.defaultKey hidden b'.scope)
    (onward : b'.scope.Approximates engine.defaultKey hidden later)
    (avoids : e.avoids hidden = true) :
    Related (Advances Unresolved.verdict True True) Resolved.IsSimple (evaluate engine deeper e b)
      (evaluate engine deeper' e b') := by
  refine evaluate_related source e fun part member =>
    ⟨Expr.isPlainPart_of_avoids avoids part member, ?_⟩
  rintro r rfl
  have known : r.avoids hidden = true := List.all_eq_true.mp avoids _ member
  have along := approximates.resolve known
  exact ⟨_, _, rfl, rfl, along.informs, fun _ => along.isSimple,
    fun _ => (onward.resolve known).isSimple⟩

end

end Cascade
