import Cascade.Proofs.StagedPasses

/-!
# Errors stay local

In a document of maps, simple values and plain expressions, a top-level field that no reference
leads to is seen by nothing outside it. It may fail, wait for itself, or depend on anything: pass by
pass, everything else becomes what it becomes with another value of the field, or without it. Only
the names that the message for a missing name proposes may differ, since they are drawn from all
fields.

So the two documents go through their passes in step, and since a tree that a pass leaves as it was
stays so for good, it does not matter that one of them needs more passes than the other.

## Main definitions

* `Alike`, `Issue.Alike`, `Annotations.Alike`: equality up to the proposed names.
* `Node.Agrees`: the nodes have the same value, classification and annotations.
* `Twins`: trees whose nodes agree.
* `Apart`: documents that are twins apart from a field.

## Main statements

* `resolve_alike`: what references find in documents that are twins apart from a field.
* `Apart.pass`: passes lead from twins to twins.
* `Apart.settleWithin`: and so they do until nothing changes.
* `settle_insert`: a field that no reference leads to has no influence on the others.
-/

namespace Cascade

open Eval

variable {α : Type}

/-! ### Equality up to the proposed names -/

/-- The outcomes are equal, or both miss the same name. -/
inductive Alike : Except Unresolved α → Except Unresolved α → Prop
  | refl (o : Except Unresolved α) : Alike o o
  | notFound (name : String) (similar similar' : List String) :
    Alike (.error (.ofFailure (.notFound name similar)))
      (.error (.ofFailure (.notFound name similar')))

instance : IsHandedOn Alike where
  value a := .refl (.ok a)
  failure failure := .refl _
  eq_of_ok related := by
    cases related
    rfl
  error {α u o} related := by
    cases related with
    | refl => exact .inl ⟨u, rfl, rfl, fun _ => .refl _⟩
    | notFound name similar similar' =>
      exact .inl ⟨_, rfl, rfl, fun _ => .notFound name similar similar'⟩

/-- The issues are equal, or both say that the same name is missing. -/
inductive Issue.Alike : Option Issue → Option Issue → Prop
  | refl (issue : Option Issue) : Alike issue issue
  | notFound (name : String) (similar similar' : List String) :
    Alike (some (.ofMessage (Failure.notFound name similar).message))
      (some (.ofMessage (Failure.notFound name similar').message))

theorem Issue.Alike.symm {issue issue' : Option Issue} (alike : Issue.Alike issue issue') :
    Issue.Alike issue' issue := by
  cases alike with
  | refl => exact .refl _
  | notFound name similar similar' => exact .notFound name similar' similar

/-- The annotations are equal up to the names that their issues propose. -/
structure Annotations.Alike (a a' : Annotations) : Prop where
  flags : { a' with issue := none } = { a with issue := none }
  issue : Issue.Alike a.issue a'.issue

namespace Annotations.Alike

variable {a a' : Annotations}

theorem refl (a : Annotations) : a.Alike a := ⟨rfl, .refl _⟩

theorem symm (alike : a.Alike a') : a'.Alike a := ⟨alike.flags.symm, alike.issue.symm⟩

theorem clearIssue (alike : a.Alike a') : a'.clearIssue = a.clearIssue := by
  have same := congrArg Annotations.clearIssue alike.flags
  exact same

/-- Diagnostics of alike annotations are of one kind. -/
theorem kindOf (alike : a.Alike a') : Report.kindOf a' = Report.kindOf a := by
  have same := congrArg Report.kindOf alike.flags
  exact same

end Annotations.Alike

/-- The nodes have the same value, the same classification and, up to the names that their issues
propose, the same annotations. Two maps have the same keys; what stands below is not compared. -/
structure Node.Agrees (node node' : Node) : Prop where
  value : node'.value = node.value ∨ ∃ fields fields', node.value = .map fields ∧
    node'.value = .map fields' ∧ Fields.keys fields' = Fields.keys fields
  annotations : node.annotations.Alike node'.annotations
  source : node'.source = node.source
  resolved : node'.isResolved = node.isResolved
  failing : node'.hasError = node.hasError
  kind : Report.kindOf node'.annotations = Report.kindOf node.annotations

/-! ### Twins -/

/-- Trees of maps, simple values and expressions of a kind that are equal up to the names that their
issues propose. -/
inductive Twins (kind : Expr → Prop) : Option Node → Option Node → Prop
  | absent : Twins kind none none
  | simple {node : Node} (simple : node.isSimple = true) : Twins kind (some node) (some node)
  | expression {value : Value} {a a' : Annotations} {source : String} {e : Expr}
    (written : (Node.mk value a source).expr? = some e) (ofKind : kind e)
    (clear : a.clearIssue = {}) (alike : a.Alike a') : Twins kind (some ⟨value, a, source⟩) (some ⟨value, a', source⟩)
  | map {keys : List String} {now later : String → Option Node} {source : String}
    (plain : ∀ key ∈ keys, controlSuffix? key = none)
    (inside : ∀ key ∈ keys, Twins kind (now key) (later key)) :
    Twins kind (some ⟨.map (Fields.pick keys now), {}, source⟩)
      (some ⟨.map (Fields.pick keys later), {}, source⟩)

theorem Fields.keys_pick {α : Type} {keys : List String} {child : String → Option α} :
    Fields.keys (pick keys child) = keys.filter fun key => (child key).isSome := by
  rw [Fields.keys, pick]
  induction keys with
  | nil => rfl
  | cons key rest ih =>
    rw [List.filterMap_cons, List.filter_cons]
    cases child key with
    | none => exact ih
    | some value => exact congrArg (key :: ·) ih

namespace Twins

variable {kind wider : Expr → Prop} {x y z w : Option Node} {node node' : Node}
  {keys : List String} {now later : String → Option Node} {defaultKey name : String}

theorem symm (twins : Twins kind x y) : Twins kind y x := by
  induction twins with
  | absent => exact .absent
  | simple simple => exact .simple simple
  | expression written ofKind clear alike =>
    exact .expression written ofKind (alike.clearIssue.trans clear) alike.symm
  | map plain inside ih => exact .map plain ih

theorem approximates (twins : Twins kind x y) : Approximates x y := by
  induction twins with
  | absent => exact .absent
  | simple simple => exact .simple simple
  | expression written ofKind clear alike => exact .expression written clear _
  | map plain inside ih => exact .map plain ih

/-- A tree is its own twin. -/
theorem of_madeOf (made : node.MadeOf kind) : Twins kind (some node) (some node) := by
  induction made with
  | simple simple => exact .simple simple
  | @map fields source distinct plain inside ih =>
    have self : Twins kind
        (some ⟨.map (Fields.pick (Fields.keys fields) (Fields.find? fields)), {}, source⟩)
        (some ⟨.map (Fields.pick (Fields.keys fields) (Fields.find? fields)), {}, source⟩) := by
      refine .map (List.forall_mem_map.mpr plain) (List.forall_mem_map.mpr fun field member => ?_)
      rw [Fields.find?_of_mem distinct member]
      exact ih field member
    rwa [Fields.pick_find? distinct] at self
  | @expression node e written ofKind clear =>
    obtain ⟨value, annotations, source⟩ := node
    exact .expression written ofKind clear (.refl annotations)

theorem isSome_eq (twins : Twins kind x y) : y.isSome = x.isSome := by
  cases twins <;> rfl

theorem keys_eq (inside : ∀ key ∈ keys, Twins kind (now key) (later key)) :
    Fields.keys (Fields.pick keys later) = Fields.keys (Fields.pick keys now) := by
  rw [Fields.keys_pick, Fields.keys_pick]
  exact List.filter_congr fun key member => (inside key member).isSome_eq

theorem or (first : Twins kind x y) (second : Twins kind z w) :
    Twins kind (x.or z) (y.or w) := by
  cases first with
  | absent => exact second
  | simple simple => exact .simple simple
  | expression written ofKind clear alike => exact .expression written ofKind clear alike
  | map plain inside => exact .map plain inside

theorem find? (inside : ∀ key ∈ keys, Twins kind (now key) (later key)) (key : String) :
    Twins kind (Fields.find? (Fields.pick keys now) key)
      (Fields.find? (Fields.pick keys later) key) := by
  rw [Fields.find?_pick, Fields.find?_pick]
  split
  · next member => exact inside key member
  · exact .absent

/-- What stands somewhere in twins are twins. -/
theorem lookup? (twins : Twins kind x y) (path : List String) :
    Twins kind (x.bind fun node => node.lookup? path defaultKey)
      (y.bind fun node => node.lookup? path defaultKey) := by
  induction twins generalizing path with
  | absent => exact .absent
  | @simple node simple =>
    rw [Option.bind_some]
    cases finds : node.lookup? path defaultKey with
    | none => exact .absent
    | some found => exact .simple (Node.isSimple_of_lookup? simple finds)
  | @expression value a a' source e written ofKind clear alike =>
    cases path with
    | nil => exact .expression written ofKind clear alike
    | cons segment rest =>
      have written' : (Node.mk value a' source).expr? = some e := written
      rw [Option.bind_some, Option.bind_some, Node.lookup?_cons_of_expr? written,
        Node.lookup?_cons_of_expr? written']
      exact .absent
  | @map keys now later source plain inside ih =>
    cases path with
    | nil => exact .map plain inside
    | cons segment rest =>
      rw [Option.bind_some, Option.bind_some, Node.lookup?_map_cons, Node.lookup?_map_cons,
        Fields.find?_pick, Fields.find?_pick]
      split
      · next member => exact ih segment member rest
      · exact .absent

/-- The fields of twins are twins. -/
theorem field? (twins : Twins kind x y) (name : String) :
    Twins kind (x.bind fun node => node.field? name) (y.bind fun node => node.field? name) := by
  cases twins with
  | absent => exact .absent
  | @simple node simple =>
    rw [Option.bind_some]
    cases field : node.field? name with
    | none => exact .absent
    | some child =>
      have stands : node.lookup? [name] "" = some child := by
        rw [Node.lookup?_cons, Node.step?_of_field? field]
        rfl
      exact .simple (Node.isSimple_of_lookup? simple stands)
  | @expression value a a' source e written ofKind clear alike =>
    cases value with
    | map fields => cases written
    | _ => exact .absent
  | map plain inside => exact find? inside name

theorem isResolved_of (twins : Twins kind (some node) (some node')) (resolved : node.isResolved) :
    node'.isResolved := by
  obtain ⟨-, same⟩ := twins.approximates.eq_of_isResolved node rfl resolved
  rwa [Option.some.inj same]

theorem hasError_of (twins : Twins kind x y) :
    ∀ node node', x = some node → y = some node' → node.hasError = true →
      node'.hasError = true := by
  induction twins with
  | absent => exact fun _ _ => nofun
  | simple simple =>
    rintro _ _ ⟨⟩ ⟨⟩ fails
    exact fails
  | @expression value a a' source e written ofKind clear alike =>
    rintro _ _ ⟨⟩ ⟨⟩ fails
    have written' : (Node.mk value a' source).expr? = some e := written
    rw [Node.hasError_of_expr? written] at fails
    rw [Node.hasError_of_expr? written']
    exact alike.kindOf.trans_ne fails
  | @map keys now later source plain inside ih =>
    rintro _ _ ⟨⟩ ⟨⟩ fails
    obtain ⟨field, member, below⟩ := Node.hasError_map_iff.mp fails
    obtain ⟨known, picked⟩ := Fields.mem_pick.mp member
    have twin := (inside _ known).isSome_eq
    rw [picked] at twin
    obtain ⟨child, picked'⟩ := Option.isSome_iff_exists.mp twin
    exact Node.hasError_map_iff.mpr ⟨(field.1, child), Fields.mem_pick.mpr ⟨known, picked'⟩,
      ih _ known field.2 child picked picked' below⟩

theorem hasError_eq (twins : Twins kind (some node) (some node')) :
    node'.hasError = node.hasError :=
  Bool.eq_iff_iff.mpr ⟨twins.symm.hasError_of _ _ rfl rfl, twins.hasError_of _ _ rfl rfl⟩

/-- Twins agree. -/
theorem agrees (twins : Twins kind (some node) (some node')) : node.Agrees node' := by
  have failing := twins.hasError_eq
  have resolved : node'.isResolved = node.isResolved :=
    Bool.eq_iff_iff.mpr ⟨twins.symm.isResolved_of, twins.isResolved_of⟩
  cases twins with
  | simple simple => exact ⟨.inl rfl, .refl _, rfl, rfl, rfl, rfl⟩
  | expression written ofKind clear alike =>
    exact ⟨.inl rfl, alike, rfl, resolved, failing, alike.kindOf⟩
  | map plain inside =>
    exact ⟨.inr ⟨_, _, rfl, rfl, keys_eq inside⟩, .refl _, rfl, resolved, failing, rfl⟩

/-- Paths from twins lead to the same outcome. -/
theorem valueAlong_eq (twins : Twins kind x y) :
    ∀ node node', x = some node → y = some node' → ∀ seen path,
      valueAlong defaultKey name node' seen path = valueAlong defaultKey name node seen path := by
  induction twins with
  | absent => exact fun _ _ => nofun
  | simple simple =>
    rintro _ _ ⟨⟩ ⟨⟩ seen path
    rfl
  | @expression value a a' source e written ofKind clear alike =>
    rintro _ _ ⟨⟩ ⟨⟩ seen path
    have written' : (Node.mk value a' source).expr? = some e := written
    rw [valueAlong_of_expr? written, valueAlong_of_expr? written', alike.kindOf]
  | @map keys now later source plain inside ih =>
    rintro _ _ ⟨⟩ ⟨⟩ seen path
    have whole : Twins kind (some ⟨.map (Fields.pick keys now), {}, source⟩)
        (some ⟨.map (Fields.pick keys later), {}, source⟩) := .map plain inside
    cases path with
    | nil =>
      cases resolved : (Node.mk (.map (Fields.pick keys now)) {} source).isResolved with
      | true =>
        obtain ⟨-, same⟩ := whole.approximates.eq_of_isResolved _ rfl resolved
        rw [Option.some.inj same]
      | false =>
        have waits := whole.agrees.resolved.trans resolved
        rw [valueAlong_map_nil resolved, valueAlong_map_nil waits, whole.hasError_eq]
    | cons segment rest =>
      rw [valueAlong_map_eq, valueAlong_map_eq, keys_eq inside, Fields.find?_pick,
        Fields.find?_pick]
      split
      · next member =>
        have twin := inside segment member
        cases here : now segment with
        | none =>
          rw [here] at twin
          rw [twin.approximates.eq_none]
        | some child =>
          obtain ⟨child', there⟩ := Option.isSome_iff_exists.mp
            (twin.isSome_eq.trans (here ▸ rfl))
          rw [there]
          exact ih segment member child child' here there _ rest
      · rfl

/-- Paths from what has been found lead to alike outcomes. -/
theorem valueOnward_alike {similar similar' seen path : List String} {missing : String}
    (twins : Twins kind x y) :
    Alike (valueOnward defaultKey name x (.notFound missing similar) seen path)
      (valueOnward defaultKey name y (.notFound missing similar') seen path) := by
  have onward := twins.isSome_eq
  cases x with
  | none =>
    cases y with
    | none => exact .notFound missing similar similar'
    | some node' => cases onward
  | some node =>
    cases y with
    | none => cases onward
    | some node' =>
      rw [valueOnward, valueOnward, Option.elim_some, Option.elim_some,
        twins.valueAlong_eq node node' rfl rfl]
      exact .refl _

end Twins

/-! ### References -/

/-- The reference may lead to the top-level field of a name: its path begins with the name. A path
without names leads to the document itself, with the field in it. -/
def Reference.leadsTo (name : String) (r : Reference) : Bool :=
  r.path.head?.all (· == name)

/-- The form is that of a part of an ordinary expression; a reference may be of any form that does
not lead to the hidden field. -/
def Expr.isPartOutside (hidden : String) : Expr → Bool
  | .reference r => !r.leadsTo hidden
  | e => e.isOrdinaryPart

/-- The expression consists of literals, operators and references. -/
def Expr.isPlain (e : Expr) : Bool := e.walk.all Expr.isPlainPart

/-- The expression consists of literals, operators, and references that do not lead to the hidden
field. -/
def Expr.isOutside (hidden : String) (e : Expr) : Bool := e.walk.all (Expr.isPartOutside hidden)

theorem Expr.isPlain_of_isOutside {hidden : String} {e : Expr} (outside : e.isOutside hidden) :
    e.isPlain = true := by
  refine List.all_eq_true.mpr fun part member => ?_
  have known := List.all_eq_true.mp outside part member
  cases part with
  | reference r => rfl
  | _ => exact known

theorem Expr.staticInfo_of_isPlain {e : Expr} (plain : e.isPlain = true) : e.staticInfo = {} :=
  staticInfo_of_isPlainPart (List.all_eq_true.mp plain)

/-- Documents are twins apart from a hidden field. Outside it no reference leads to it. -/
abbrev TwinsApart (hidden : String) : Node → Node → Prop :=
  RelatedApart (Twins fun e => e.isOutside hidden) hidden

section

variable {hidden defaultKey name : String} {kind : Expr → Prop} {root root' : Node}
  {scope scope' : Scope} {found found' : String → Option Node} {r : Reference}

theorem TwinsApart.symm (apart : TwinsApart hidden root root') : TwinsApart hidden root' root := by
  cases apart with
  | intro inside => exact .intro fun key member visible => (inside key member visible).symm

/-- Below visible fields, the same stands in both documents. -/
theorem TwinsApart.lookup? (apart : TwinsApart hidden root root') {key : String}
    (visible : key ≠ hidden) (rest : List String) :
    Twins (fun e => e.isOutside hidden) (root.lookup? (key :: rest) defaultKey)
      (root'.lookup? (key :: rest) defaultKey) := by
  have field := apart.field? .absent visible
  cases apart with
  | intro inside =>
    rw [Node.lookup?_map_cons, Node.lookup?_map_cons]
    exact field.lookup? rest

/-- What references find is alike. -/
theorem resolve_alike (here : scope.Shows defaultKey root found)
    (there : scope'.Shows defaultKey root' found') (apart : TwinsApart hidden root root')
    (names : ∀ name, name ≠ hidden → Twins kind (found name) (found' name))
    (visible : r.leadsTo hidden = false) :
    Alike (r.resolve scope defaultKey false) (r.resolve scope' defaultKey false) := by
  obtain ⟨first, rest, path, differs⟩ :
      ∃ first rest, r.path = first :: rest ∧ first ≠ hidden := by
    unfold Reference.leadsTo at visible
    cases path : r.path with
    | nil =>
      rw [path] at visible
      cases visible
    | cons first rest => exact ⟨first, rest, rfl, by simpa [path] using visible⟩
  rcases Scope.Shows.resolve defaultKey r with atRoot | ⟨_, _, path', byName⟩ | ⟨failure, nowhere⟩
  · have field := apart.field? .absent differs
    rw [atRoot here, atRoot there, path]
    cases apart with
    | intro inside =>
      rw [valueAlong_map_eq, valueAlong_map_eq]
      exact field.valueOnward_alike
  · rw [path] at path'
    cases path'
    obtain ⟨similar, resolved⟩ := byName here
    obtain ⟨similar', resolved'⟩ := byName there
    rw [resolved, resolved']
    exact (names first differs).valueOnward_alike
  · rw [nowhere here, nowhere there]
    exact .refl _

/-- A reference among trees of maps, simple values and expressions has a simple value if any. -/
theorem isSimple_of_shows {resolved : Resolved} (shown : scope.Shows defaultKey root found)
    (made : root.MadeOf kind) (names : ∀ name, Twins kind (found name) (found name))
    (resolves : r.resolve scope defaultKey false = .ok resolved) : resolved.IsSimple := by
  rcases Scope.Shows.resolve defaultKey r with
    atRoot | ⟨first, rest, -, byName⟩ | ⟨failure, nowhere⟩
  · rw [atRoot shown] at resolves
    exact isSimple_of_valueAlong (Twins.of_madeOf made).approximates resolves
  · obtain ⟨similar, value⟩ := byName shown
    have self := names first
    rw [value, valueOnward] at resolves
    cases stands : found first with
    | none =>
      rw [stands] at resolves
      cases resolves
    | some node =>
      rw [stands] at resolves self
      exact isSimple_of_valueAlong self.approximates resolves
  · rw [nowhere shown] at resolves
    cases resolves

theorem findSome?_twins {depths : List Nat} {find find' : Nat → Option Node}
    (each : ∀ depth ∈ depths, Twins kind (find depth) (find' depth)) :
    Twins kind (depths.findSome? find) (depths.findSome? find') := by
  induction depths with
  | nil => exact .absent
  | cons depth depths ih =>
    obtain ⟨here, others⟩ := List.forall_mem_cons.mp each
    have split (find : Nat → Option Node) : (depth :: depths).findSome? find =
        (find depth).or (depths.findSome? find) := by
      rw [List.findSome?_cons]
      cases find depth <;> rfl
    rw [split, split]
    exact here.or (ih others)

/-- Around a place in a tree, names mean nodes of the tree. -/
theorem Node.MadeOf.findEnclosing? (made : root.MadeOf kind) (place : List String) (name : String) :
    Twins kind (Reference.findEnclosing? defaultKey root place name)
      (Reference.findEnclosing? defaultKey root place name) :=
  findSome?_twins fun depth _ => ((Twins.of_madeOf made).lookup? (place.take depth)).field? name

/-- Around a place outside the hidden field, names mean twins. -/
theorem TwinsApart.findEnclosing? (apart : TwinsApart hidden root root') {place : List String}
    (outside : place.head? ≠ some hidden) (visible : name ≠ hidden) :
    Twins (fun e => e.isOutside hidden) (Reference.findEnclosing? defaultKey root place name)
      (Reference.findEnclosing? defaultKey root' place name) := by
  refine findSome?_twins fun depth member => ?_
  have below : depth < place.length := by simpa using member
  cases depth with
  | zero => exact apart.field? .absent visible
  | succ depth =>
    cases place with
    | nil => cases below
    | cons key rest =>
      rw [List.take_succ_cons]
      exact (apart.lookup? (by simpa using outside) _).field? name

end

/-! ### Passes -/

section

variable {hidden : String} {engine : Engine} {deeper deeper' : Deeper} {s s' : Setting}
  {root root' node next : Node} {place : List String} {e : Expr}
  {outcomes outcomes' : Outcomes}

/-- The places of a tree show it and the names around them. -/
theorem Node.MadeOf.shows {kind : Expr → Prop} {defaultKey : String} (made : root.MadeOf kind)
    (alone : s.IsAlone) (place : List String) : (s.scopeAt root place).Shows defaultKey root
      (Reference.findEnclosing? defaultKey root place) :=
  shows_scopeAt alone made.findTag?

/-- The outcomes of a plain expression are alike if those of its references are. -/
theorem evaluate_alike (made : root.MadeOf fun e => e.isPlain) (alone : s.IsAlone)
    (made' : root'.MadeOf fun e => e.isPlain) (alone' : s'.IsAlone)
    (source : root'.source = root.source) (plain : e.isPlain = true)
    (references : ∀ r, .reference r ∈ e.walk → Alike
      (r.resolve (s.scopeAt root place) engine.defaultKey false)
      (r.resolve (s'.scopeAt root' place) engine.defaultKey false)) :
    Related Alike Resolved.IsSimple (evaluate engine deeper e (s.bindingAt root place))
      (evaluate engine deeper' e (s'.bindingAt root' place)) := by
  have sameSource : (s'.bindingAt root' place).source = (s.bindingAt root place).source := source
  refine evaluate_related sameSource e fun part member =>
    ⟨List.all_eq_true.mp plain part member, ?_⟩
  rintro r rfl
  exact ⟨_, _, rfl, rfl, references r member,
    fun _ => isSimple_of_shows (made.shows alone place) made (made.findEnclosing? place),
    fun _ => isSimple_of_shows (made'.shows alone' place) made' (made'.findEnclosing? place)⟩

/-- A plain expression is evaluated without effect, to a simple value if any. -/
theorem outcomeOf_plain (engine : Engine) (deeper : Deeper) (place : List String)
    (made : root.MadeOf fun e => e.isPlain) (alone : s.IsAlone) (plain : e.isPlain = true) :
    outcomeOf engine deeper e (s.bindingAt root place) =
        pure (s.outcomes engine deeper root e place) ∧
      ∀ r, s.outcomes engine deeper root e place = .ok r → r.IsSimple := by
  have related : Related Alike Resolved.IsSimple (evaluate engine deeper e (s.bindingAt root place))
      (evaluate engine deeper e (s.bindingAt root place)) :=
    evaluate_alike made alone made alone rfl plain fun _ _ => .refl _
  obtain ⟨o, -, same, -, -, known, -⟩ := related
  rw [outcomes_eq same, outcomeOf, same]
  exact ⟨rfl, known⟩

/-- Outside the hidden field, expressions have alike outcomes. -/
theorem outcomes_alike (made : root.MadeOf fun e => e.isPlain) (alone : s.IsAlone)
    (made' : root'.MadeOf fun e => e.isPlain) (alone' : s'.IsAlone)
    (apart : TwinsApart hidden root root') (outside : place.head? ≠ some hidden)
    (visible : e.isOutside hidden = true) :
    Alike (s.outcomes engine deeper root e place) (s'.outcomes engine deeper' root' e place) := by
  have related : Related Alike Resolved.IsSimple
      (evaluate engine deeper e (s.bindingAt root place))
      (evaluate engine deeper' e (s'.bindingAt root' place)) := by
    refine evaluate_alike made alone made' alone' apart.source (Expr.isPlain_of_isOutside visible)
      fun r member => ?_
    have leads := List.all_eq_true.mp visible _ member
    exact resolve_alike (made.shows alone place) (made'.shows alone' place) apart
      (fun _ => apart.findEnclosing? outside) (by simpa [Expr.isPartOutside] using leads)
  obtain ⟨o, o', same, same', alike, -⟩ := related
  rw [outcomes_eq same, outcomes_eq same']
  exact alike

/-- Diagnostics of alike outcomes are alike. -/
theorem stillExpression_alike {u u' : Unresolved} {a a' : Annotations} {value : Value}
    {source : String} (alike : a.Alike a')
    (outcome : Alike (.error u : Except Unresolved Resolved) (.error u')) :
    ((Node.mk value a source).stillExpression e u).annotations.Alike
      ((Node.mk value a' source).stillExpression e u').annotations := by
  have clear := alike.clearIssue
  have shape (a : Annotations) (u : Unresolved) :
      ((Node.mk value a source).stillExpression e u).annotations =
        { a.clearIssue with
          hasError := u.isError, failed := u.info.failed, issue := u.info.issue } := rfl
  rw [shape, shape, clear]
  cases outcome with
  | refl => exact .refl _
  | notFound name similar similar' => exact ⟨rfl, .notFound name similar similar'⟩

/-- Twins become twins where their expressions have alike outcomes. -/
theorem Twins.advance {kind : Expr → Prop} {x y : Option Node} {place : List String}
    (twins : Twins kind x y) (unmarked : ∀ e, kind e → e.staticInfo = {})
    (alike : ∀ path e, kind e → Alike (outcomes e (place ++ path)) (outcomes' e (place ++ path)))
    (simple : ∀ path e r, kind e → outcomes e (place ++ path) = .ok r → r.IsSimple) :
    Twins kind (x.bind fun node => node.advance outcomes place)
      (y.bind fun node => node.advance outcomes' place) := by
  induction twins generalizing place with
  | absent => exact .absent
  | simple whole =>
    rw [Option.bind_some, Option.bind_some, Node.advance_of_isSimple whole,
      Node.advance_of_isSimple whole]
    exact .simple whole
  | @expression value a a' source e written ofKind clear flags =>
    have written' : (Node.mk value a' source).expr? = some e := written
    have outcome := alike [] e ofKind
    rw [List.append_nil] at outcome
    rw [Option.bind_some, Option.bind_some, Node.advance_of_expr? written,
      Node.advance_of_expr? written']
    cases known : outcomes e place with
    | ok r =>
      rw [known] at outcome
      rw [IsHandedOn.eq_of_ok (R := Alike) outcome]
      dsimp only
      have whole := simple [] e r ofKind (by rwa [List.append_nil])
      have same : resolvedNode ⟨value, a', source⟩ e r = resolvedNode ⟨value, a, source⟩ e r :=
        resolvedNode_congr flags.clearIssue rfl
      rw [same]
      have either : resolvedNode ⟨value, a, source⟩ e r = none ∨ _ :=
        resolvedNode_of_isSimple (unmarked e ofKind) clear whole
      rcases either with removed | ⟨kept, -⟩
      · rw [removed]
        exact .absent
      · rw [kept]
        exact .simple (Node.isSimple_plain.mpr whole.value)
    | error u =>
      rw [known] at outcome
      generalize outcomes' e place = o' at outcome
      have still (u' : Unresolved)
          (alike : Alike (.error u : Except Unresolved Resolved) (.error u')) :
          Twins kind (some ((Node.mk value a source).stillExpression e u))
            (some ((Node.mk value a' source).stillExpression e u')) :=
        .expression Node.expr?_stillExpression ofKind clear (stillExpression_alike flags alike)
      cases outcome with
      | refl => exact still u (.refl _)
      | notFound name similar similar' => exact still _ (.notFound name similar similar')
  | @map keys now later source plain inside ih =>
    rw [Option.bind_some, Option.bind_some, Node.advance_map, Node.advance_map,
      advanceFields_eq_filterMap, advanceFields_eq_filterMap,
      Fields.filterMap_pick fun key (child : Node) => child.advance outcomes (place ++ [key]),
      Fields.filterMap_pick fun key (child : Node) => child.advance outcomes' (place ++ [key])]
    refine .map plain fun key member => ih key member ?_ ?_
    · intro path e ofKind
      rw [List.append_assoc]
      exact alike _ e ofKind
    · intro path e r ofKind
      rw [List.append_assoc]
      exact simple _ e r ofKind

/-- Documents of maps, simple values and plain expressions that are twins apart from a field. -/
structure Apart (hidden : String) (root root' : Node) : Prop where
  made : root.MadeOf fun e => e.isPlain
  made' : root'.MadeOf fun e => e.isPlain
  twins : TwinsApart hidden root root'

theorem Apart.symm (apart : Apart hidden root root') : Apart hidden root' root :=
  ⟨apart.made', apart.made, apart.twins.symm⟩

/-- Where expressions outside the hidden field have alike outcomes, documents that are twins apart
from the field become such documents. -/
theorem TwinsApart.advance (outcomes outcomes' : Outcomes) (apart : TwinsApart hidden root root')
    (alike : ∀ key path e, key ≠ hidden → e.isOutside hidden = true →
      Alike (outcomes e (key :: path)) (outcomes' e (key :: path)))
    (simple : ∀ path e r, e.isOutside hidden = true → outcomes e path = .ok r → r.IsSimple) :
    ∃ next next', root.advance outcomes [] = some next ∧ root'.advance outcomes' [] = some next' ∧
      TwinsApart hidden next next' := by
  cases apart with
  | intro inside =>
    rw [Node.advance_map, Node.advance_map, advanceFields_eq_filterMap, advanceFields_eq_filterMap,
      Fields.filterMap_pick fun key (child : Node) => child.advance outcomes ([] ++ [key]),
      Fields.filterMap_pick fun key (child : Node) => child.advance outcomes' ([] ++ [key])]
    refine ⟨_, _, rfl, rfl, .intro fun key member visible => ?_⟩
    exact (inside key member visible).advance
      (fun _ outside => Expr.staticInfo_of_isPlain (Expr.isPlain_of_isOutside outside))
      (fun path e => alike key path e visible) fun path e r => simple _ e r

/-- A pass over a document has no effect but on the tree. A tree that looks the same afterwards is
the same. -/
theorem pass_of_plain (deeper : Deeper) (made : root.MadeOf fun e => e.isPlain)
    (alone : s.IsAlone) (advances : root.advance (s.outcomes engine deeper root) [] = some next) :
    pass engine deeper s root = pure next ∧ (next.MadeOf fun e => e.isPlain) ∧
      (next.same root = true → next = root) := by
  have unmarked (e : Expr) (plain : e.isPlain = true) := Expr.staticInfo_of_isPlain plain
  have each {path : List String} {e : Expr} (stands : root.HasExpr engine.defaultKey path e) :=
    outcomeOf_plain engine deeper path made alone (made.ofKind stands)
  have flowed : flowNode engine deeper (root.height + itemsHeight s.stubs + 1 + deeper.fuel) root
      (s.bindingAt root []) s.overridable =
        pure (root.advance (s.outcomes engine deeper root) []) :=
    flowNode_of_madeOf alone.noStubs alone.noState made unmarked
      (fun path e stands => (each stands).1) (by omega)
  have simple : root.ReceivesSimple engine.defaultKey (some (s.outcomes engine deeper root)) [] :=
    fun path e r stands delivers => (each stands).2 r (delivers_some.mp delivers)
  refine ⟨?_, made.stage unmarked simple advances, made.eq_of_same unmarked simple advances⟩
  rw [pass]
  change flowNode engine deeper _ root (s.bindingAt root []) _ >>= _ = _
  rw [flowed, pure_bind, advances]
  rfl

/-- Passes lead from documents that are twins apart from a field to such documents. -/
theorem Apart.pass (deeper deeper' : Deeper) (apart : Apart hidden root root') (alone : s.IsAlone)
    (alone' : s'.IsAlone) :
    ∃ next next', Cascade.pass engine deeper s root = pure next ∧
      Cascade.pass engine deeper' s' root' = pure next' ∧ Apart hidden next next' ∧
      (next.same root = true → next = root) ∧ (next'.same root' = true → next' = root') := by
  obtain ⟨next, next', advances, advances', twins⟩ := apart.twins.advance
    (s.outcomes engine deeper root) (s'.outcomes engine deeper' root')
    (fun key path e visible outside => outcomes_alike apart.made alone apart.made' alone'
      apart.twins (by simpa using visible) outside)
    fun path e r outside => (outcomeOf_plain engine deeper path apart.made alone
      (Expr.isPlain_of_isOutside outside)).2 r
  obtain ⟨passes, made, still⟩ := pass_of_plain deeper apart.made alone advances
  obtain ⟨passes', made', still'⟩ := pass_of_plain deeper' apart.made' alone' advances'
  exact ⟨next, next', passes, passes', ⟨made, made', twins⟩, still, still'⟩

/-! ### Until nothing changes -/

/-- A tree that passes leave as it is stays a twin of what passes make of its twin. -/
theorem Apart.settleWithin_of_still {passes : Nat} {tree' : Node} {world world' : World}
    (apart : Apart hidden root root') (alone : s.IsAlone) (alone' : s'.IsAlone)
    (still : Cascade.pass engine deeper s root = pure root)
    (settles : Cascade.settleWithin engine deeper' s' passes root' world =
      some (some tree', world')) :
    Apart hidden root tree' := by
  induction passes generalizing root' with
  | zero =>
    rw [Cascade.settleWithin] at settles
    cases settles
  | succ passes ih =>
    obtain ⟨next, next', passed, passed', later, -⟩ := apart.pass deeper deeper' alone alone'
    obtain rfl : root = next := Run.eq_of_pure (congrFun (still.symm.trans passed) {})
    rw [Cascade.settleWithin, passed', pure_bind] at settles
    split at settles
    · cases settles
      exact later
    · exact ih later settles

/-- The passes over documents that are twins apart from a field come to such documents, even if they
come to them at different times. -/
theorem Apart.settleWithin {passes passes' : Nat} {tree tree' : Node} {w w' v v' : World}
    (apart : Apart hidden root root') (alone : s.IsAlone) (alone' : s'.IsAlone)
    (settles : Cascade.settleWithin engine deeper s passes root w = some (some tree, w'))
    (settles' : Cascade.settleWithin engine deeper' s' passes' root' v = some (some tree', v')) :
    Apart hidden tree tree' := by
  induction passes generalizing root root' passes' with
  | zero =>
    rw [Cascade.settleWithin] at settles
    cases settles
  | succ passes ih =>
    cases passes' with
    | zero =>
      rw [Cascade.settleWithin] at settles'
      cases settles'
    | succ passes' =>
      obtain ⟨next, next', passed, passed', later, still, still'⟩ :=
        apart.pass deeper deeper' alone alone'
      rw [Cascade.settleWithin, passed, pure_bind] at settles
      rw [Cascade.settleWithin, passed', pure_bind] at settles'
      by_cases ends : next.same root = true <;> by_cases ends' : next'.same root' = true
      · rw [if_pos ends] at settles
        rw [if_pos ends'] at settles'
        cases settles
        cases settles'
        exact later
      · -- The first document has come to its end, the second one goes on.
        obtain rfl := still ends
        rw [if_pos ends] at settles
        rw [if_neg ends'] at settles'
        cases settles
        exact later.settleWithin_of_still alone alone' passed settles'
      · obtain rfl := still' ends'
        rw [if_neg ends] at settles
        rw [if_pos ends'] at settles'
        cases settles'
        exact (later.symm.settleWithin_of_still alone' alone passed' settles).symm
      · rw [if_neg ends] at settles
        rw [if_neg ends'] at settles'
        exact ih later settles settles'

end

/-! ### A field that is added -/

section

variable {key : String} {value : Node} {fields : Fields Node} {source : String}

theorem Fields.pick_keys_insert {child : String → Option Node} (absent : child key = none) :
    pick (keys (insert key value fields)) child = pick (keys fields) child := by
  have nothing (names : List String) : pick (key :: names) child = pick names child := by
    rw [pick, List.filterMap_cons, absent]
    rfl
  induction fields with
  | nil => exact nothing []
  | cons field rest ih =>
    obtain ⟨name, old⟩ := field
    rw [insert]
    split
    · exact nothing _
    · split
      · next same =>
        subst same
        rfl
      · change pick (name :: keys (insert key value rest)) child = pick (name :: keys rest) child
        rw [pick, pick, List.filterMap_cons, List.filterMap_cons, ← pick, ← pick, ih]

/-- A document and the document with another field are twins apart from that field. -/
theorem Apart.of_insert (sorted : fields.Sorted) (lacks : Fields.find? fields key = none)
    (plain : controlSuffix? key = none)
    (made : (Node.mk (.map fields) {} source).MadeOf fun e => e.isOutside key)
    (added : value.MadeOf fun e => e.isPlain) :
    Apart key ⟨.map fields, {}, source⟩ ⟨.map (Fields.insert key value fields), {}, source⟩ := by
  have wide := made.mono fun _ => Expr.isPlain_of_isOutside
  have distinct := (sorted.insert key value).distinct
  refine ⟨wide, .map distinct ?_ ?_, ?_⟩
  · intro field member
    rcases Fields.mem_insert member with rfl | known
    · exact plain
    · exact (wide.field known).1
  · intro field member
    rcases Fields.mem_insert member with rfl | known
    · exact added
    · exact (wide.field known).2
  · have here : Fields.pick (Fields.keys (Fields.insert key value fields)) (Fields.find? fields) =
        fields := (Fields.pick_keys_insert lacks).trans (Fields.pick_find? sorted.distinct)
    have twins : TwinsApart key
        ⟨.map (Fields.pick (Fields.keys (Fields.insert key value fields))
          (Fields.find? fields)), {}, source⟩
        ⟨.map (Fields.pick (Fields.keys (Fields.insert key value fields))
          (Fields.find? (Fields.insert key value fields))), {}, source⟩ := by
      refine .intro fun name _ visible => ?_
      rw [Fields.find?_insert, if_neg visible.symm]
      cases known : Fields.find? fields name with
      | none => exact .absent
      | some child => exact .of_madeOf (made.field (Fields.mem_of_find? known)).2
    rwa [here, Fields.pick_find? distinct] at twins

/-- A field that no reference leads to has no influence on the others. Let a document of maps,
simple values and plain expressions lack a top-level field that none of its references leads to, and
let the field be added with any value of that kind. If the passes over both documents come to an
end, then apart from the field the same nodes stand in both results, and they agree in their values,
in being resolved, failed, dependent on a failure or unresolved, and in their annotations, up to
the names that their issues propose. -/
theorem settle_insert (engine : Engine) (deeper deeper' : Deeper) (s s' : Setting)
    (alone : s.IsAlone) (alone' : s'.IsAlone) (fields : Fields Node) (source key : String)
    (value : Node) (sorted : fields.Sorted) (lacks : Fields.find? fields key = none)
    (plain : controlSuffix? key = none)
    (made : (Node.mk (.map fields) {} source).MadeOf fun e => e.isOutside key)
    (added : value.MadeOf fun e => e.isPlain) (w w' v v' : World) (tree tree' : Node)
    (settles : settle engine deeper s ⟨.map fields, {}, source⟩ w = some (some tree, w'))
    (settles' : settle engine deeper' s' ⟨.map (Fields.insert key value fields), {}, source⟩ v =
      some (some tree', v')) :
    tree'.annotations = tree.annotations ∧
    ∀ name rest, name ≠ key → Option.Rel Node.Agrees
      (tree.lookup? (name :: rest) engine.defaultKey)
      (tree'.lookup? (name :: rest) engine.defaultKey) := by
  rw [settle_of_noStubs alone.noStubs] at settles
  rw [settle_of_noStubs alone'.noStubs] at settles'
  have start : Apart key ⟨.map fields, {}, source⟩
      ⟨.map (Fields.insert key value fields), {}, source⟩ :=
    .of_insert sorted lacks plain made added
  have apart := (start.settleWithin alone alone' settles settles').twins
  constructor
  · cases apart
    rfl
  · intro name rest visible
    have twins : Twins (fun e => e.isOutside key)
        (tree.lookup? (name :: rest) engine.defaultKey)
        (tree'.lookup? (name :: rest) engine.defaultKey) := apart.lookup? visible rest
    cases here : tree.lookup? (name :: rest) engine.defaultKey with
    | none =>
      rw [here] at twins
      rw [twins.approximates.eq_none]
      exact .none
    | some node =>
      rw [here] at twins
      obtain ⟨node', there⟩ := Option.isSome_iff_exists.mp twins.isSome_eq
      rw [there] at twins ⊢
      exact .some twins.agrees

end

/-! ### A field that waits for itself -/

/-- A field that misses a name, one that depends on this failure, and one that recovers from it. -/
def missingFields : Fields Node :=
  [("a", .plain (.string "(( mode ))") "d"), ("b", .plain (.string "(( a + 1 ))") "d"),
    ("c", .plain (.string "(( a || 2 ))") "d")]

/-- A field that waits for itself. Its name is proposed for the one that is missing. -/
def circularField : Node := .plain (.string "(( node + c ))") "d"

/-- Flows of ordinary documents come to an end. -/
theorem exists_settled {s : Setting} (root : Node) (alone : s.IsAlone)
    (recognised : root.isOrdinary = true) (fresh : root.hasError = false)
    (enough : (root.waitingPlaces []).length + 2 ≤ Engine.standard.maxPasses) :
    ∃ tree, settle Engine.standard (Engine.standard.below 0) s root {} = some (some tree, {}) := by
  have start : OrdinarySnapshot Engine.standard (Engine.standard.below 0) s root :=
    .first (Node.ordinary_of_isOrdinary recognised) fresh
  obtain ⟨tree, settles, -⟩ := start.settleWithin alone enough
  exact ⟨tree, by rw [settle_of_noStubs alone.noStubs, settles]; rfl⟩

theorem settle_insert_circularField : ∃ tree tree',
    settle Engine.standard (Engine.standard.below 0) { id := ⟨0, []⟩ }
      ⟨.map missingFields, {}, "d"⟩ {} = some (some tree, {}) ∧
    settle Engine.standard (Engine.standard.below 0) { id := ⟨1, []⟩ }
      ⟨.map (Fields.insert "node" circularField missingFields), {}, "d"⟩ {} =
        some (some tree', {}) ∧
    tree'.annotations = tree.annotations ∧
    ∀ name rest, name ≠ "node" → Option.Rel Node.Agrees
      (tree.lookup? (name :: rest) "name") (tree'.lookup? (name :: rest) "name") := by
  have alone (id : DocumentId) : Setting.IsAlone { id } := ⟨rfl, rfl, rfl, rfl⟩
  obtain ⟨tree, settles⟩ := exists_settled ⟨.map missingFields, {}, "d"⟩ (alone ⟨0, []⟩)
    (by decide +kernel) (by decide +kernel) (by decide +kernel)
  obtain ⟨tree', settles'⟩ := exists_settled
    ⟨.map (Fields.insert "node" circularField missingFields), {}, "d"⟩ (alone ⟨1, []⟩)
    (by decide +kernel) (by decide +kernel) (by decide +kernel)
  refine ⟨tree, tree', settles, settles', ?_⟩
  exact settle_insert Engine.standard (Engine.standard.below 0) (Engine.standard.below 0) _ _
    (alone _) (alone _) missingFields "d" "node" circularField (by decide) (by decide) (by decide)
    (Node.madeOf_of_isMadeOf (by decide +kernel)) (Node.madeOf_of_isMadeOf (by decide +kernel))
    {} {} {} {} tree tree' settles settles'

end Cascade
