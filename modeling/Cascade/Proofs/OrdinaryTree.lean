import Cascade.Proofs.OrdinaryExpr

/-!
# Ordinary trees

An ordinary tree consists of maps without directives and controls, of simple values and of ordinary
expressions. A pass over it has no effect and no say in its shape: each expression receives its
outcome over the snapshot, and everything else stays.

## Main definitions

* `Node.Ordinary`; `Node.isOrdinary` recognises such trees.
* `Node.advance`: the tree whose expressions have received their outcomes.
* `Continues`: outcomes that agree with what the expressions of a tree received before.

## Main statements

* `Node.Ordinary.advance`: the tree stays ordinary.
* `lookup?_advance`, `lookup?_of_advance`: what stands where afterwards.
-/

namespace Cascade

open Eval

/-! ### Ordinary trees -/

/-- The tree consists of maps with plain keys, of simple values, and of ordinary expressions with
their diagnostics. -/
inductive Node.Ordinary : Node → Prop
  | simple {node : Node} (simple : node.isSimple = true) : Ordinary node
  | map {fields : Fields Node} {source : String} (distinct : (Fields.keys fields).Nodup)
    (plain : ∀ field ∈ fields, controlSuffix? field.1 = none)
    (inside : ∀ field ∈ fields, Ordinary field.2) : Ordinary ⟨.map fields, {}, source⟩
  | expression {node : Node} {e : Expr} (written : node.expr? = some e) (ordinary : e.isOrdinary)
    (clear : node.annotations.clearIssue = {}) : Ordinary node

section

variable {node : Node} {defaultKey : String}

theorem Node.expr?_of_isSimple (simple : node.isSimple = true) : node.expr? = none :=
  expr?_of_data (isPlainData_of_isSimple simple)

/-- An expression is no container. -/
theorem Node.step?_of_expr? {e : Expr} {segment : String} (written : node.expr? = some e) :
    node.step? segment defaultKey = none := by
  obtain ⟨value, annotations, source⟩ := node
  cases value with
  | list items => cases written
  | map fields => cases written
  | _ => rfl

theorem Node.lookup?_cons_of_expr? {e : Expr} {segment : String} {rest : List String}
    (written : node.expr? = some e) : node.lookup? (segment :: rest) defaultKey = none := by
  rw [lookup?_cons, step?_of_expr? written, Option.bind_none]

theorem Node.lookup?_map_cons {fields : Fields Node} {annotations : Annotations} {source : String}
    {segment : String} {rest : List String} :
    (Node.mk (.map fields) annotations source).lookup? (segment :: rest) defaultKey =
      (Fields.find? fields segment).bind fun child => child.lookup? rest defaultKey :=
  lookup?_cons ..

theorem Node.isSimple_of_lookup? {found : Node} {path : List String} (simple : node.isSimple = true)
    (finds : node.lookup? path defaultKey = some found) : found.isSimple = true := by
  induction path generalizing node with
  | nil =>
    cases finds
    exact simple
  | cons segment rest ih =>
    rw [lookup?_cons] at finds
    obtain ⟨next, step, later⟩ := Option.bind_eq_some_iff.mp finds
    exact ih (isSimple_of_stepBy? simple step) later

theorem Node.not_isResolved_of_expr? {e : Expr} (written : node.expr? = some e) :
    node.isResolved = false := by
  obtain ⟨value, annotations, source⟩ := node
  rw [← Bool.not_eq_true, isResolved_iff]
  rintro ⟨-, whole⟩
  cases value with
  | expression e => cases whole
  | string text =>
    have unread : Embedded.isUnread text = true := by
      rw [Embedded.isUnread_iff_classify]
      unfold expr? at written
      dsimp only at written
      split at written
      · next e shape => exact .inl ⟨e, shape⟩
      · cases written
    rw [valueResolved, unread] at whole
    cases whole
  | _ => cases written

theorem Node.isResolved_map_iff {fields : Fields Node} {source : String} :
    (Node.mk (.map fields) {} source).isResolved = true ↔
      ∀ field ∈ fields, field.2.isResolved = true := by
  rw [isResolved_iff, valueResolved, allFieldsResolved_iff]
  exact and_iff_right rfl

theorem Node.hasError_map_iff {fields : Fields Node} {source : String} :
    (Node.mk (.map fields) {} source).hasError = true ↔
      ∃ field ∈ fields, field.2.hasError = true := by
  have below : Node.anyFieldHasError fields = true ↔ ∃ field ∈ fields, field.2.hasError = true := by
    induction fields with
    | nil => simp [anyFieldHasError]
    | cons field rest ih => simp [anyFieldHasError, ih]
  rw [← below]
  simp [hasError, valueHasError]

/-- What is resolved has no error. -/
theorem Node.hasError_of_isResolved (resolved : node.isResolved = true) :
    node.hasError = false := by
  induction node using Node.treeInduction with
  | list items annotations source ih =>
    obtain ⟨clear, whole⟩ := Node.isResolved_iff.mp resolved
    dsimp only at clear
    have inside := fun item member => ih item member (allResolved_iff.mp whole item member)
    have below : anyHasError items = false := by
      clear ih whole resolved
      induction items with
      | nil => rfl
      | cons item rest ih => simp_all [anyHasError]
    rw [hasError, valueHasError, below, ← clear]
    rfl
  | map fields annotations source ih =>
    obtain ⟨clear, whole⟩ := Node.isResolved_iff.mp resolved
    dsimp only at clear
    have inside := fun field member => ih field member (allFieldsResolved_iff.mp whole field member)
    have below : anyFieldHasError fields = false := by
      clear ih whole resolved
      induction fields with
      | nil => rfl
      | cons field rest ih => simp_all [anyFieldHasError]
    rw [hasError, valueHasError, below, ← clear]
    rfl
  | leaf value annotations source notList notMap =>
    obtain ⟨clear, -⟩ := Node.isResolved_iff.mp resolved
    dsimp only at clear
    rw [hasError, ← clear]
    cases value with
    | list items => exact absurd rfl (notList items)
    | map fields => exact absurd rfl (notMap fields)
    | _ => rfl

/-- An expression has an error if its outcome was one or depends on one. -/
theorem Node.hasError_of_expr? {e : Expr} (written : node.expr? = some e) :
    node.hasError = true ↔ Report.kindOf node.annotations ≠ .unresolved := by
  obtain ⟨value, annotations, source⟩ := node
  have alone : valueHasError value = false := by
    cases value with
    | list items => cases written
    | map fields => cases written
    | _ => rfl
  rw [hasError, alone, Report.kindOf]
  cases annotations.hasError <;> cases annotations.failed <;> simp

namespace Node.Ordinary

/-- What is resolved in an ordinary tree is simple. -/
theorem isSimple (ordinary : node.Ordinary) (resolved : node.isResolved = true) :
    node.isSimple = true := by
  induction ordinary with
  | simple simple => exact simple
  | map distinct plain inside ih =>
    have whole := Node.isResolved_map_iff.mp resolved
    exact Node.isSimple_iff.mpr ⟨rfl, Value.isSimple_map.mpr fun field member =>
      ⟨plain field member, ih field member (whole field member)⟩⟩
  | expression written ordinary clear =>
    rw [Node.not_isResolved_of_expr? written] at resolved
    cases resolved

/-- The nodes of an ordinary tree are ordinary. -/
theorem lookup? {path : List String} {found : Node} (ordinary : node.Ordinary)
    (finds : node.lookup? path defaultKey = some found) : found.Ordinary := by
  induction ordinary generalizing path with
  | simple simple => exact .simple (Node.isSimple_of_lookup? simple finds)
  | map distinct plain inside ih =>
    cases path with
    | nil =>
      cases finds
      exact .map distinct plain inside
    | cons segment rest =>
      rw [Node.lookup?_map_cons] at finds
      obtain ⟨next, step, later⟩ := Option.bind_eq_some_iff.mp finds
      exact ih _ (Fields.mem_of_find? step) later
  | expression written ordinary clear =>
    cases path with
    | nil =>
      cases finds
      exact .expression written ordinary clear
    | cons segment rest =>
      rw [Node.lookup?_cons_of_expr? written] at finds
      cases finds

/-- The expressions of an ordinary tree are ordinary, without annotations but diagnostics. -/
theorem of_expr? {e : Expr} (ordinary : node.Ordinary) (written : node.expr? = some e) :
    e.isOrdinary ∧ node.annotations.clearIssue = {} := by
  cases ordinary with
  | simple simple =>
    rw [Node.expr?_of_isSimple simple] at written
    cases written
  | map distinct plain inside => cases written
  | expression before plain clear =>
    rw [before] at written
    cases written
    exact ⟨plain, clear⟩

/-- What is not resolved has an expression in it. -/
theorem isResolved_eq_false_iff (ordinary : node.Ordinary) (defaultKey : String) :
    node.isResolved = false ↔
    ∃ path found e, node.lookup? path defaultKey = some found ∧ found.expr? = some e := by
  constructor
  · intro left
    induction ordinary with
    | simple simple =>
      rw [Node.isResolved_of_isSimple simple] at left
      cases left
    | @map fields source distinct plain inside ih =>
      obtain ⟨field, member, waits⟩ : ∃ field ∈ fields, field.2.isResolved = false := by
        rw [← Bool.not_eq_true, Node.isResolved_map_iff] at left
        simpa using left
      obtain ⟨path, found, e, reaches, written⟩ := ih field member waits
      refine ⟨field.1 :: path, found, e, ?_, written⟩
      rw [Node.lookup?_map_cons, Fields.find?_of_mem distinct member]
      exact reaches
    | @expression node e written ordinary clear => exact ⟨[], node, e, rfl, written⟩
  · rintro ⟨path, found, e, reaches, written⟩
    rw [← Bool.not_eq_true]
    intro resolved
    have simple := Node.isSimple_of_lookup? (ordinary.isSimple resolved) reaches
    rw [Node.expr?_of_isSimple simple] at written
    cases written

/-- A tree has an error if an expression in it failed or depends on one that did. -/
theorem hasError_iff (ordinary : node.Ordinary) (defaultKey : String) : node.hasError = true ↔
    ∃ path found e, node.lookup? path defaultKey = some found ∧ found.expr? = some e ∧
      Report.kindOf found.annotations ≠ .unresolved := by
  constructor
  · intro fails
    induction ordinary with
    | simple simple =>
      rw [Node.hasError_of_isResolved (Node.isResolved_of_isSimple simple)] at fails
      cases fails
    | map distinct plain inside ih =>
      obtain ⟨field, member, below⟩ := Node.hasError_map_iff.mp fails
      obtain ⟨path, found, e, reaches, written, flagged⟩ := ih field member below
      refine ⟨field.1 :: path, found, e, ?_, written, flagged⟩
      rw [Node.lookup?_map_cons, Fields.find?_of_mem distinct member]
      exact reaches
    | @expression node e written ordinary clear =>
      exact ⟨[], node, e, rfl, written, (Node.hasError_of_expr? written).mp fails⟩
  · rintro ⟨path, found, e, reaches, written, flagged⟩
    induction ordinary generalizing path with
    | simple simple =>
      rw [Node.expr?_of_isSimple (Node.isSimple_of_lookup? simple reaches)] at written
      cases written
    | map distinct plain inside ih =>
      cases path with
      | nil =>
        cases reaches
        cases written
      | cons segment rest =>
        rw [Node.lookup?_map_cons] at reaches
        obtain ⟨child, known, below⟩ := Option.bind_eq_some_iff.mp reaches
        have member := Fields.mem_of_find? known
        exact Node.hasError_map_iff.mpr ⟨_, member, ih _ member rest below⟩
    | expression before ordinary clear =>
      cases path with
      | nil =>
        cases reaches
        exact (Node.hasError_of_expr? written).mpr flagged
      | cons segment rest =>
        rw [Node.lookup?_cons_of_expr? before] at reaches
        cases reaches

end Node.Ordinary

end

mutual

/-- The tree is recognised as ordinary. -/
def Node.isOrdinary : Node → Bool
  | ⟨.map fields, annotations, _⟩ =>
    annotations.isPlain && decide (Fields.keys fields).Nodup && fieldsOrdinary fields
  | node =>
    match node.expr? with
    | some e => e.isOrdinary && node.annotations.clearIssue.isPlain
    | none => node.isSimple

/-- The fields are recognised as those of an ordinary map. -/
def fieldsOrdinary : List (String × Node) → Bool
  | [] => true
  | (key, child) :: rest =>
    (controlSuffix? key).isNone && child.isOrdinary && fieldsOrdinary rest

end

theorem Node.ordinary_of_isOrdinary {node : Node} (recognised : node.isOrdinary = true) :
    node.Ordinary := by
  have alone {node : Node} (notMap : ∀ fields, node.value ≠ .map fields)
      (recognised : node.isOrdinary = true) : node.Ordinary := by
    rw [isOrdinary] at recognised
    · split at recognised
      · next e written =>
        rw [Bool.and_eq_true] at recognised
        exact .expression written recognised.1 (Annotations.eq_of_isPlain recognised.2)
      · exact .simple recognised
    · exact fun fields annotations source same => notMap fields (congrArg Node.value same)
  induction node using Node.treeInduction with
  | map fields annotations source ih =>
    rw [isOrdinary, Bool.and_eq_true, Bool.and_eq_true, decide_eq_true_iff] at recognised
    obtain ⟨⟨plain, distinct⟩, inside⟩ := recognised
    obtain rfl := Annotations.eq_of_isPlain plain
    have each : ∀ field ∈ fields, controlSuffix? field.1 = none ∧ field.2.isOrdinary = true := by
      clear ih distinct plain
      induction fields with
      | nil => exact fun _ => nofun
      | cons field rest ih =>
        obtain ⟨key, child⟩ := field
        rw [fieldsOrdinary, Bool.and_eq_true, Bool.and_eq_true] at inside
        obtain ⟨⟨plain, ordinary⟩, others⟩ := inside
        exact List.forall_mem_cons.mpr
          ⟨⟨Option.isNone_iff_eq_none.mp plain, ordinary⟩, ih others⟩
    exact .map distinct (fun field member => (each field member).1) fun field member =>
      ih field member (each field member).2
  | list items annotations source ih => exact alone (by simp) recognised
  | leaf value annotations source notList notMap => exact alone notMap recognised

/-! ### Receiving outcomes -/

/-- The outcomes of expressions by place. -/
abbrev Outcomes := Expr → List String → Except Unresolved Resolved

/-- An expression that has received its outcome. Everything else stays. -/
def Node.receive (node : Node) (outcome : Expr → Except Unresolved Resolved) : Option Node :=
  match node.expr? with
  | none => some node
  | some e =>
    match outcome e with
    | .ok resolved => resolvedNode node e resolved
    | .error u => some (node.stillExpression e u)

mutual

/-- The tree at a place whose expressions have received their outcomes. -/
def Node.advance (outcomes : Outcomes) : Node → List String → Option Node
  | ⟨.map fields, annotations, source⟩, place =>
    some ⟨.map (advanceFields outcomes fields place), annotations, source⟩
  | node, place => node.receive fun e => outcomes e place

/-- The fields of the map at a place whose expressions have received their outcomes. -/
def advanceFields (outcomes : Outcomes) : List (String × Node) → List String → List (String × Node)
  | [], _ => []
  | (key, child) :: rest, place =>
    ((child.advance outcomes (place ++ [key])).map fun child => (key, child)).toList ++
      advanceFields outcomes rest place

end

section

variable {outcomes : Outcomes} {defaultKey : String}

theorem Node.advance_map {fields : Fields Node} {annotations : Annotations} {source : String}
    {place : List String} :
    Node.advance outcomes ⟨.map fields, annotations, source⟩ place =
      some ⟨.map (advanceFields outcomes fields place), annotations, source⟩ := by
  rw [advance]

theorem Node.advance_of_ne_map {node : Node} {place : List String}
    (notMap : ∀ fields, node.value ≠ .map fields) :
    node.advance outcomes place = node.receive fun e => outcomes e place := by
  rw [advance]
  exact fun fields annotations source same => notMap fields (congrArg Node.value same)

theorem Node.ne_map_of_expr? {node : Node} {e : Expr} (written : node.expr? = some e)
    (fields : Fields Node) : node.value ≠ .map fields := by
  intro same
  rw [expr?, same] at written
  cases written

theorem Node.advance_of_expr? {node : Node} {e : Expr} {place : List String}
    (written : node.expr? = some e) :
    node.advance outcomes place = match outcomes e place with
      | .ok resolved => resolvedNode node e resolved
      | .error u => some (node.stillExpression e u) := by
  rw [advance_of_ne_map (ne_map_of_expr? written), receive, written]

theorem advanceFields_eq_filterMap {fields : Fields Node} {place : List String} :
    advanceFields outcomes fields place = fields.filterMap fun field =>
      (field.2.advance outcomes (place ++ [field.1])).map fun child => (field.1, child) := by
  induction fields with
  | nil => rw [advanceFields, List.filterMap_nil]
  | cons field rest ih =>
    rw [advanceFields, ih, List.filterMap_cons]
    cases field.2.advance outcomes (place ++ [field.1]) <;> rfl

theorem advanceFields_eq_self {fields : Fields Node} {place : List String}
    (same : ∀ field ∈ fields, field.2.advance outcomes (place ++ [field.1]) = some field.2) :
    advanceFields outcomes fields place = fields := by
  induction fields with
  | nil => rw [advanceFields]
  | cons field rest ih =>
    obtain ⟨first, others⟩ := List.forall_mem_cons.mp same
    rw [advanceFields, first, ih others]
    rfl

/-- Nothing changes in a simple value. -/
theorem Node.advance_of_isSimple {node : Node} (simple : node.isSimple = true)
    (place : List String) : node.advance outcomes place = some node := by
  induction node using Node.treeInduction generalizing place with
  | map fields annotations source ih =>
    have inside := Value.isSimple_map.mp (Node.isSimple_iff.mp simple).2
    rw [advance_map, advanceFields_eq_self fun field member =>
      ih field member (inside field member).2 _]
  | list items annotations source ih =>
    rw [advance_of_ne_map (by simp), receive, Node.expr?_of_isSimple simple]
  | leaf value annotations source notList notMap =>
    rw [advance_of_ne_map notMap, receive, Node.expr?_of_isSimple simple]

/-- The fields keep their names, and those of removed expressions are left out. -/
theorem keys_advanceFields_sublist {fields : Fields Node} {place : List String} :
    (Fields.keys (advanceFields outcomes fields place)).Sublist (Fields.keys fields) := by
  induction fields with
  | nil => rw [advanceFields]
  | cons field rest ih =>
    obtain ⟨key, child⟩ := field
    rw [advanceFields]
    cases child.advance outcomes (place ++ [key]) with
    | none => exact ih.cons key
    | some next => exact ih.cons_cons key

theorem keys_advanceFields {fields : Fields Node} {place : List String}
    (stays : ∀ field ∈ fields, (field.2.advance outcomes (place ++ [field.1])).isSome) :
    Fields.keys (advanceFields outcomes fields place) = Fields.keys fields := by
  induction fields with
  | nil => rw [advanceFields]
  | cons field rest ih =>
    obtain ⟨first, others⟩ := List.forall_mem_cons.mp stays
    obtain ⟨next, advances⟩ := Option.isSome_iff_exists.mp first
    rw [advanceFields, advances]
    exact congrArg (field.1 :: ·) (ih others)

theorem mem_advanceFields {fields : Fields Node} {place : List String} {field : String × Node} :
    field ∈ advanceFields outcomes fields place ↔
      ∃ child, (field.1, child) ∈ fields ∧
        child.advance outcomes (place ++ [field.1]) = some field.2 := by
  induction fields with
  | nil => simp [advanceFields]
  | cons entry rest ih =>
    obtain ⟨key, child⟩ := entry
    rw [advanceFields, List.mem_append, ih]
    constructor
    · rintro (own | ⟨later, member, advances⟩)
      · obtain ⟨next, advances, rfl⟩ := Option.map_eq_some_iff.mp (Option.mem_toList.mp own)
        exact ⟨child, List.mem_cons_self, advances⟩
      · exact ⟨later, List.mem_cons_of_mem _ member, advances⟩
    · rintro ⟨before, member, advances⟩
      rcases List.mem_cons.mp member with same | later
      · cases same
        exact .inl (Option.mem_toList.mpr (by rw [advances]; rfl))
      · exact .inr ⟨before, later, advances⟩

/-- The field of a name is what that field has become. -/
theorem find?_advanceFields {fields : Fields Node} {place : List String} {key : String}
    (distinct : (Fields.keys fields).Nodup) :
    Fields.find? (advanceFields outcomes fields place) key =
      (Fields.find? fields key).bind fun child => child.advance outcomes (place ++ [key]) := by
  induction fields with
  | nil => rw [advanceFields]; rfl
  | cons field rest ih =>
    obtain ⟨name, child⟩ := field
    obtain ⟨fresh, distinct⟩ := List.nodup_cons.mp distinct
    rw [advanceFields, Fields.find?_cons]
    split
    · next same =>
      subst same
      rw [Option.bind_some]
      cases child.advance outcomes (place ++ [name]) with
      | some next => exact if_pos rfl
      | none =>
        have absent : name ∉ Fields.keys (advanceFields outcomes rest place) := fun known =>
          fresh (keys_advanceFields_sublist.subset known)
        exact Fields.find?_eq_none_iff.mpr fun field member same =>
          absent (same ▸ List.mem_map_of_mem member)
    · next differs =>
      rw [← ih distinct]
      cases child.advance outcomes (place ++ [name]) with
      | some next => exact if_neg differs
      | none => rfl

/-! ### What expressions become -/

/-- The values that ordinary expressions receive are simple. -/
def Outcomes.AreSimple (outcomes : Outcomes) : Prop :=
  ∀ e place r, e.isOrdinary → outcomes e place = .ok r → r.IsSimple

/-- The kind of a diagnostic is that of the outcome. -/
theorem kindOf_stillExpression {node : Node} {e : Expr} {u : Unresolved} :
    Report.kindOf (node.stillExpression e u).annotations = u.kind := rfl

/-- An ordinary expression becomes a simple value, disappears, or stays with a diagnostic. -/
theorem Node.advance_expression {node : Node} {e : Expr} (place : List String)
    (simple : outcomes.AreSimple) (written : node.expr? = some e) (ordinary : e.isOrdinary)
    (clear : node.annotations.clearIssue = {}) :
    (∃ r, outcomes e place = .ok r ∧
      ∀ next ∈ node.advance outcomes place, next.isSimple = true ∧ next.source = node.source) ∨
    ∃ u, outcomes e place = .error u ∧
      node.advance outcomes place = some (node.stillExpression e u) := by
  rw [advance_of_expr? written]
  cases outcome : outcomes e place with
  | error u => exact .inr ⟨u, rfl, rfl⟩
  | ok r =>
    refine .inl ⟨r, rfl, fun next received => ?_⟩
    obtain ⟨whole, noted⟩ := simple e place r ordinary outcome
    dsimp only at received
    rw [resolvedNode, clear, Expr.staticInfo_of_isOrdinary ordinary] at received
    rcases noted with noted | noted
    · rw [noted] at received
      cases received
      exact ⟨isSimple_plain.mpr whole, rfl⟩
    · rw [noted] at received
      cases received

theorem Node.expr?_stillExpression {node : Node} {e : Expr} {u : Unresolved} :
    (node.stillExpression e u).expr? = some e := rfl

namespace Node.Ordinary

variable {node next : Node} {place : List String}

/-- What an ordinary tree becomes is ordinary. -/
theorem advance (ordinary : node.Ordinary) (simple : outcomes.AreSimple)
    (advances : node.advance outcomes place = some next) : next.Ordinary := by
  induction ordinary generalizing place next with
  | simple whole =>
    rw [Node.advance_of_isSimple whole] at advances
    cases advances
    exact .simple whole
  | map distinct plain inside ih =>
    rw [Node.advance_map] at advances
    cases advances
    refine .map (distinct.sublist keys_advanceFields_sublist) ?_ ?_
    · intro field member
      obtain ⟨child, known, -⟩ := mem_advanceFields.mp member
      exact plain (field.1, child) known
    · intro field member
      obtain ⟨child, known, advances⟩ := mem_advanceFields.mp member
      exact ih _ known advances
  | expression written ordinary clear =>
    rcases Node.advance_expression place simple written ordinary clear with
      ⟨r, -, whole⟩ | ⟨u, -, still⟩
    · exact .simple (whole next advances).1
    · rw [still] at advances
      cases advances
      exact .expression Node.expr?_stillExpression ordinary clear

theorem source_advance (ordinary : node.Ordinary) (simple : outcomes.AreSimple)
    (advances : node.advance outcomes place = some next) : next.source = node.source := by
  cases ordinary with
  | simple whole =>
    rw [Node.advance_of_isSimple whole] at advances
    cases advances
    rfl
  | map distinct plain inside =>
    rw [Node.advance_map] at advances
    cases advances
    rfl
  | expression written ordinary clear =>
    rcases Node.advance_expression place simple written ordinary clear with
      ⟨r, -, whole⟩ | ⟨u, -, still⟩
    · exact (whole next advances).2
    · rw [still] at advances
      cases advances
      rfl

/-- Only an expression with an outcome disappears. -/
theorem exists_of_advance_eq_none (ordinary : node.Ordinary) (simple : outcomes.AreSimple)
    (removed : node.advance outcomes place = none) :
    ∃ e r, node.expr? = some e ∧ outcomes e place = .ok r := by
  cases ordinary with
  | simple whole =>
    rw [Node.advance_of_isSimple whole] at removed
    cases removed
  | map distinct plain inside =>
    rw [Node.advance_map] at removed
    cases removed
  | @expression _ e written ordinary clear =>
    rcases Node.advance_expression place simple written ordinary clear with
      ⟨r, known, -⟩ | ⟨u, -, still⟩
    · exact ⟨e, r, written, known⟩
    · rw [still] at removed
      cases removed

/-- What stands somewhere in the tree has become what it becomes at its place. -/
theorem lookup?_advance {path : List String} {found : Node} (ordinary : node.Ordinary)
    (simple : outcomes.AreSimple) (advances : node.advance outcomes place = some next)
    (finds : node.lookup? path defaultKey = some found) :
    next.lookup? path defaultKey = found.advance outcomes (place ++ path) := by
  induction ordinary generalizing place next path with
  | simple whole =>
    rw [Node.advance_of_isSimple whole] at advances
    cases advances
    rw [finds, Node.advance_of_isSimple (Node.isSimple_of_lookup? whole finds)]
  | @map fields source distinct plain inside ih =>
    cases path with
    | nil =>
      cases finds
      rw [List.append_nil, advances]
      rfl
    | cons segment rest =>
      rw [Node.lookup?_map_cons] at finds
      obtain ⟨child, known, later⟩ := Option.bind_eq_some_iff.mp finds
      rw [Node.advance_map] at advances
      cases advances
      rw [Node.lookup?_map_cons, find?_advanceFields distinct, known, Option.bind_some]
      cases onward : child.advance outcomes (place ++ [segment]) with
      | some next => exact (ih _ (Fields.mem_of_find? known) onward later).trans (by simp)
      | none =>
        -- Only an expression disappears, and nothing stands below it.
        obtain ⟨e, r, written, -⟩ := exists_of_advance_eq_none
          (inside _ (Fields.mem_of_find? known)) simple onward
        cases rest with
        | nil =>
          cases later
          exact onward.symm
        | cons segment rest =>
          rw [Node.lookup?_cons_of_expr? written] at later
          cases later
  | expression written ordinary clear =>
    cases path with
    | nil =>
      cases finds
      rw [List.append_nil, advances]
      rfl
    | cons segment rest =>
      rw [Node.lookup?_cons_of_expr? written] at finds
      cases finds

/-- An expression without a value is still there. -/
theorem lookup?_still {path : List String} {found : Node} {e : Expr} {u : Unresolved}
    (ordinary : node.Ordinary) (simple : outcomes.AreSimple)
    (advances : node.advance outcomes place = some next)
    (finds : node.lookup? path defaultKey = some found) (written : found.expr? = some e)
    (outcome : outcomes e (place ++ path) = .error u) :
    next.lookup? path defaultKey = some (found.stillExpression e u) := by
  rw [ordinary.lookup?_advance simple advances finds, Node.advance_of_expr? written, outcome]

/-- An expression that is left stood there before. -/
theorem lookup?_of_advance {path : List String} {left : Node} {e : Expr} (ordinary : node.Ordinary)
    (simple : outcomes.AreSimple) (advances : node.advance outcomes place = some next)
    (finds : next.lookup? path defaultKey = some left) (written : left.expr? = some e) :
    ∃ found u, node.lookup? path defaultKey = some found ∧ found.expr? = some e ∧
      outcomes e (place ++ path) = .error u ∧ left = found.stillExpression e u := by
  induction ordinary generalizing place next path with
  | simple whole =>
    rw [Node.advance_of_isSimple whole] at advances
    cases advances
    rw [Node.expr?_of_isSimple (Node.isSimple_of_lookup? whole finds)] at written
    cases written
  | @map fields source distinct plain inside ih =>
    rw [Node.advance_map] at advances
    cases advances
    cases path with
    | nil =>
      cases finds
      cases written
    | cons segment rest =>
      rw [Node.lookup?_map_cons, find?_advanceFields distinct] at finds
      obtain ⟨child', step, later⟩ := Option.bind_eq_some_iff.mp finds
      obtain ⟨child, known, onward⟩ := Option.bind_eq_some_iff.mp step
      obtain ⟨found, u, reaches, before, outcome, rfl⟩ :=
        ih _ (Fields.mem_of_find? known) onward later
      refine ⟨found, u, ?_, before, by simpa using outcome, rfl⟩
      rw [Node.lookup?_map_cons, known]
      exact reaches
  | @expression node e' before ordinary clear =>
    rcases Node.advance_expression place simple before ordinary clear with
      ⟨r, -, whole⟩ | ⟨u, outcome, still⟩
    · have bare := (whole next advances).1
      rw [Node.expr?_of_isSimple (Node.isSimple_of_lookup? bare finds)] at written
      cases written
    · rw [still] at advances
      cases advances
      cases path with
      | nil =>
        cases finds
        cases written
        exact ⟨node, u, rfl, before, by rwa [List.append_nil], rfl⟩
      | cons segment rest =>
        rw [Node.lookup?_cons_of_expr? Node.expr?_stillExpression] at finds
        cases finds

end Node.Ordinary

/-! ### Outcomes that go on from diagnostics -/

/-- The outcomes at a place agree with the diagnostics in the tree there: what failed, or depends on
a failure, still does, and what waits still does unless something `may` change. -/
def Continues (outcomes : Outcomes) (defaultKey : String) (may : Prop) (node : Node)
    (place : List String) : Prop :=
  ∀ path found e, node.lookup? path defaultKey = some found → found.expr? = some e →
    (∃ u, outcomes e (place ++ path) = .error u ∧ u.kind = Report.kindOf found.annotations) ∨
      may ∧ Report.kindOf found.annotations = .unresolved

section

variable {may : Prop} {node next : Node} {place : List String}

theorem Continues.lookup? {path : List String} {found : Node}
    (continues : Continues outcomes defaultKey may node place)
    (reaches : node.lookup? path defaultKey = some found) :
    Continues outcomes defaultKey may found (place ++ path) := by
  intro rest last e later written
  rw [List.append_assoc]
  refine continues (path ++ rest) last e ?_ written
  rw [Node.lookup?, List.foldlM_append, ← Node.lookup?, reaches]
  exact later

theorem Continues.field {fields : Fields Node} {source key : String} {child : Node}
    (continues : Continues outcomes defaultKey may ⟨.map fields, {}, source⟩ place)
    (known : Fields.find? fields key = some child) :
    Continues outcomes defaultKey may child (place ++ [key]) := by
  have reaches : (Node.mk (.map fields) {} source).lookup? [key] defaultKey = some child := by
    rw [Node.lookup?_map_cons, known]
    rfl
  exact continues.lookup? reaches

namespace Node.Ordinary

variable (ordinary : node.Ordinary) (simple : outcomes.AreSimple)
  (continues : Continues outcomes defaultKey may node place)

include ordinary simple continues

/-- Only what may change disappears. -/
theorem isSome_advance (still : ¬may) : (node.advance outcomes place).isSome := by
  rw [Option.isSome_iff_ne_none]
  intro removed
  obtain ⟨e, r, written, outcome⟩ := ordinary.exists_of_advance_eq_none simple removed
  rcases continues [] node e rfl written with ⟨u, fails, -⟩ | ⟨changes, -⟩
  · rw [List.append_nil, outcome] at fails
    cases fails
  · exact still changes

variable (advances : node.advance outcomes place = some next)

include advances

/-- A failure is still there after a pass. -/
theorem hasError_advance (fails : node.hasError = true) : next.hasError = true := by
  obtain ⟨path, found, e, reaches, written, flagged⟩ := (ordinary.hasError_iff defaultKey).mp fails
  rcases continues path found e reaches written with ⟨u, outcome, alike⟩ | ⟨-, waits⟩
  · refine ((ordinary.advance simple advances).hasError_iff defaultKey).mpr
      ⟨path, found.stillExpression e u, e, ?_, Node.expr?_stillExpression, ?_⟩
    · rw [ordinary.lookup?_advance simple advances reaches, Node.advance_of_expr? written, outcome]
    · rw [kindOf_stillExpression, alike]
      exact flagged
  · exact absurd waits flagged

/-- If nothing changes, a failure was there before. -/
theorem hasError_of_advance (still : ¬may) (fails : next.hasError = true) :
    node.hasError = true := by
  obtain ⟨path, left, e, reaches, written, flagged⟩ :=
    ((ordinary.advance simple advances).hasError_iff defaultKey).mp fails
  obtain ⟨found, u, finds, before, outcome, rfl⟩ :=
    ordinary.lookup?_of_advance simple advances reaches written
  refine (ordinary.hasError_iff defaultKey).mpr ⟨path, found, e, finds, before, ?_⟩
  rcases continues path found e finds before with ⟨u', same, alike⟩ | ⟨changes, -⟩
  · rw [outcome] at same
    cases same
    rw [← alike]
    exact flagged
  · exact absurd changes still

/-- If nothing changes, what is not resolved stays so. -/
theorem isResolved_advance (still : ¬may) (waits : node.isResolved = false) :
    next.isResolved = false := by
  obtain ⟨path, found, e, reaches, written⟩ :=
    (ordinary.isResolved_eq_false_iff defaultKey).mp waits
  rcases continues path found e reaches written with ⟨u, outcome, -⟩ | ⟨changes, -⟩
  · have stays := ordinary.lookup?_still simple advances reaches written outcome
    exact ((ordinary.advance simple advances).isResolved_eq_false_iff defaultKey).mpr
      ⟨path, _, e, stays, Node.expr?_stillExpression⟩
  · exact absurd changes still

end Node.Ordinary

end

end

end Cascade
