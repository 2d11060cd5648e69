import Cascade.Proofs.OrdinaryPass
import Cascade.Proofs.ResolvedNodes

/-!
# Convergence of ordinary documents

The passes over an ordinary document end: a pass either settles an expression that waited, by a
value or by a failure, or it settles nothing, and then the next one changes nothing at all. So two
passes more than there are expressions suffice.

## Main definitions

* `OrdinarySnapshot`: an ordinary tree whose diagnostics still hold over itself.
* `Node.waitingPlaces`: the places of the expressions that wait.
* `Node.IsLeftOf`: a later tree of a document, whose expressions are among those of the first.

## Main statements

* `OrdinarySnapshot.lookup?_after`: what has been settled stays.
* `Node.Ordinary.waitingAfter_le`: a pass settles something, or the outcomes are the same once more.
* `OrdinarySnapshot.settleWithin`: passes over an ordinary document reach a fixpoint in time.
-/

namespace Cascade

/-! ### Snapshots that go on -/

/-- An ordinary tree over which what failed, or depends on a failure, still does. -/
structure OrdinarySnapshot (engine : Engine) (deeper : Deeper) (s : Setting) (root : Node) : Prop
    where
  ordinary : root.Ordinary
  continues : Continues (s.outcomes engine deeper root) engine.defaultKey True root []

/-- The document has no names but its own, and neither stubs nor a state document are asked. -/
structure Setting.IsAlone (s : Setting) : Prop where
  noStubs : s.stubs = []
  noState : s.state = none
  noLocals : s.locals = []
  outermost : s.outer = none

section

variable {engine : Engine} {deeper : Deeper} {s : Setting} {root : Node}

/-- An ordinary tree without errors, as it is read. -/
theorem OrdinarySnapshot.first (ordinary : root.Ordinary) (fresh : root.hasError = false) :
    OrdinarySnapshot engine deeper s root := by
  refine ⟨ordinary, fun path found e reaches written => .inr ⟨trivial, ?_⟩⟩
  by_contra flagged
  rw [(ordinary.hasError_iff engine.defaultKey).mpr ⟨path, found, e, reaches, written, flagged⟩]
    at fresh
  cases fresh

variable (alone : s.IsAlone)

include alone

theorem OrdinarySnapshot.areSimple (snapshot : OrdinarySnapshot engine deeper s root) :
    (s.outcomes engine deeper root).AreSimple :=
  areSimple_outcomes alone.noLocals alone.outermost snapshot.ordinary

/-- The tree after a pass is what the tree has become, or nil in place of a tree that is removed. -/
theorem OrdinarySnapshot.after_cases (snapshot : OrdinarySnapshot engine deeper s root) :
    root.advance (s.outcomes engine deeper root) [] = some (s.after engine deeper root) ∨
    (∃ e, root.expr? = some e ∧
      ∃ r, s.outcomes engine deeper root e [] = .ok r) ∧
      root.advance (s.outcomes engine deeper root) [] = none ∧
      (s.after engine deeper root).isSimple = true := by
  rw [Setting.after]
  cases advances : root.advance (s.outcomes engine deeper root) [] with
  | some next => exact .inl rfl
  | none =>
    obtain ⟨e, r, written, outcome⟩ :=
      snapshot.ordinary.exists_of_advance_eq_none (snapshot.areSimple alone) advances
    exact .inr ⟨⟨e, written, r, outcome⟩, rfl, rfl⟩

theorem OrdinarySnapshot.pass (snapshot : OrdinarySnapshot engine deeper s root) :
    pass engine deeper s root = pure (s.after engine deeper root) :=
  pass_ordinary alone.noLocals alone.outermost alone.noStubs alone.noState snapshot.ordinary

/-- The outcomes advance from a snapshot to the next one, where the expressions are. -/
theorem OrdinarySnapshot.outcomes_advance {may : Prop} {place : List String} {node : Node}
    {e : Expr} (snapshot : OrdinarySnapshot engine deeper s root)
    (continues : Continues (s.outcomes engine deeper root) engine.defaultKey may root [])
    (advances : root.advance (s.outcomes engine deeper root) [] = some (s.after engine deeper root))
    (stands : root.lookup? place engine.defaultKey = some node) (written : node.expr? = some e) :
    Advances Unresolved.kind may True (s.outcomes engine deeper root e place)
      (s.outcomes engine deeper (s.after engine deeper root) e place) := by
  have plain := ((snapshot.ordinary.lookup? stands).of_expr? written).1
  exact Cascade.outcomes_advance alone.noLocals alone.outermost snapshot.ordinary
    (snapshot.areSimple alone) continues advances stands written plain

/-- The tree after a pass goes on as well. -/
theorem OrdinarySnapshot.after (snapshot : OrdinarySnapshot engine deeper s root) :
    OrdinarySnapshot engine deeper s (s.after engine deeper root) := by
  rcases snapshot.after_cases alone with advances | ⟨-, -, simple⟩
  · refine ⟨snapshot.ordinary.advance (snapshot.areSimple alone) advances, ?_⟩
    intro path left e reaches written
    obtain ⟨found, u, finds, before, outcome, same⟩ :=
      snapshot.ordinary.lookup?_of_advance (snapshot.areSimple alone) advances reaches written
    have onward := snapshot.outcomes_advance alone snapshot.continues advances finds before
    rw [List.nil_append] at outcome ⊢
    rw [same, kindOf_stillExpression]
    rw [outcome] at onward
    revert onward
    generalize s.outcomes engine deeper (s.after engine deeper root) e path = later
    intro onward
    cases onward with
    | same u waits => exact .inl ⟨u, rfl, rfl⟩
    | failing changes fails alike => exact .inl ⟨_, rfl, alike⟩
    | waiting changes waits why next => exact .inr ⟨trivial, waits⟩
  · refine ⟨.simple simple, fun path found e reaches written => ?_⟩
    rw [Node.expr?_of_isSimple (Node.isSimple_of_lookup? simple reaches)] at written
    cases written

/-- What has been settled between two snapshots stays: resolved nodes as they are, failures and what
depends on them with their expressions and the kind of their diagnostics. -/
theorem OrdinarySnapshot.lookup?_after {path : List String} {node : Node}
    (snapshot : OrdinarySnapshot engine deeper s root)
    (reaches : root.lookup? path engine.defaultKey = some node) :
    (node.isResolved = true →
      (s.after engine deeper root).lookup? path engine.defaultKey = some node) ∧
    ∀ e, node.expr? = some e → Report.kindOf node.annotations ≠ .unresolved →
      ∃ left, (s.after engine deeper root).lookup? path engine.defaultKey = some left ∧
        left.value = .expression e ∧
        Report.kindOf left.annotations = Report.kindOf node.annotations := by
  have simple := snapshot.areSimple alone
  rcases snapshot.after_cases alone with advances | ⟨⟨e', written', r, outcome⟩, -, -⟩
  · constructor
    · intro resolved
      rw [snapshot.ordinary.lookup?_advance simple advances reaches,
        Node.advance_of_isSimple ((snapshot.ordinary.lookup? reaches).isSimple resolved)]
    · intro e written flagged
      rcases snapshot.continues path node e reaches written with ⟨u, outcome, alike⟩ | ⟨-, waits⟩
      · exact ⟨_, snapshot.ordinary.lookup?_still simple advances reaches written outcome, rfl,
          alike⟩
      · exact absurd waits flagged
  · -- The tree is an expression that has been removed, so it was neither resolved nor failed.
    cases path with
    | cons segment rest =>
      rw [Node.lookup?_cons_of_expr? written'] at reaches
      cases reaches
    | nil =>
      cases reaches
      constructor
      · intro resolved
        rw [Node.not_isResolved_of_expr? written'] at resolved
        cases resolved
      · intro e written flagged
        rcases snapshot.continues [] root e rfl written with ⟨u, fails, -⟩ | ⟨-, waits⟩
        · rw [written'] at written
          cases written
          rw [List.append_nil, outcome] at fails
          cases fails
        · exact absurd waits flagged

end

/-! ### Trees that have received their outcomes -/

section

variable {outcomes later : Outcomes} {defaultKey : String} {node next : Node} {place : List String}

/-- A tree whose expressions show what they receive stays as it is. -/
theorem Node.Ordinary.advance_eq_self (defaultKey : String) (ordinary : node.Ordinary)
    (received : ∀ path left e, node.lookup? path defaultKey = some left → left.expr? = some e →
      ∃ u, outcomes e (place ++ path) = .error u ∧ left.stillExpression e u = left) :
    node.advance outcomes place = some node := by
  induction ordinary generalizing place with
  | simple simple => exact Node.advance_of_isSimple simple place
  | @map fields source distinct plain inside ih =>
    rw [Node.advance_map, advanceFields_eq_self fun field member => ?_]
    refine ih field member fun path left e reaches written => ?_
    rw [List.append_assoc]
    refine received (field.1 :: path) left e ?_ written
    rw [Node.lookup?_map_cons, Fields.find?_of_mem distinct member]
    exact reaches
  | @expression node e written plain clear =>
    obtain ⟨u, outcome, same⟩ := received [] node e rfl written
    rw [List.append_nil] at outcome
    rw [Node.advance_of_expr? written, outcome]
    exact congrArg some same

/-- A tree that has received its outcomes stays as it is while they are the same. -/
theorem Node.Ordinary.advance_advance (defaultKey : String) (ordinary : node.Ordinary)
    (simple : outcomes.AreSimple) (advances : node.advance outcomes place = some next)
    (same : ∀ path found e, node.lookup? path defaultKey = some found → found.expr? = some e →
      later e (place ++ path) = outcomes e (place ++ path)) :
    next.advance later place = some next := by
  refine (ordinary.advance simple advances).advance_eq_self defaultKey ?_
  intro path left e reaches written
  obtain ⟨found, u, finds, before, outcome, rfl⟩ :=
    ordinary.lookup?_of_advance simple advances reaches written
  exact ⟨u, (same path found e finds before).trans outcome, rfl⟩

end

/-! ### Counting the expressions that wait -/

mutual

/-- The places of the expressions that wait, in the maps of a tree at a place. -/
def Node.waitingPlaces : Node → List String → List (List String)
  | ⟨.map fields, _, _⟩, place => fieldsWaitingPlaces fields place
  | node, place => if node.waits then [place] else []

/-- The places of the expressions that wait, in the fields of a map at a place. -/
def fieldsWaitingPlaces : List (String × Node) → List String → List (List String)
  | [], _ => []
  | (key, child) :: rest, place =>
    child.waitingPlaces (place ++ [key]) ++ fieldsWaitingPlaces rest place

end

section

variable {outcomes : Outcomes} {defaultKey : String} {node : Node} {place : List String}

theorem Node.waitingPlaces_map {fields : Fields Node} {annotations : Annotations}
    {source : String} : (Node.mk (.map fields) annotations source).waitingPlaces place =
      fieldsWaitingPlaces fields place := by
  rw [waitingPlaces]

theorem Node.waitingPlaces_of_expr? {e : Expr} (written : node.expr? = some e) :
    node.waitingPlaces place = if node.waits then [place] else [] := by
  rw [waitingPlaces]
  exact fun fields annotations source same =>
    ne_map_of_expr? written fields (congrArg Node.value same)

theorem fieldsWaitingPlaces_eq_flatMap {fields : Fields Node} :
    fieldsWaitingPlaces fields place =
      fields.flatMap fun field => field.2.waitingPlaces (place ++ [field.1]) := by
  induction fields with
  | nil => rw [fieldsWaitingPlaces, List.flatMap_nil]
  | cons field rest ih => rw [fieldsWaitingPlaces, List.flatMap_cons, ih]

theorem Node.waitingPlaces_of_isSimple (simple : node.isSimple = true) :
    node.waitingPlaces place = [] := by
  have idle : ∀ node : Node, node.isSimple = true → node.waits = false := by
    intro node simple
    rw [waits, expr?_of_isSimple simple]
    rfl
  induction node using Node.treeInduction generalizing place with
  | map fields annotations source ih =>
    have inside := Value.isSimple_map.mp (isSimple_iff.mp simple).2
    rw [waitingPlaces_map, fieldsWaitingPlaces_eq_flatMap, List.flatMap_eq_nil_iff]
    exact fun field member => ih field member (inside field member).2
  | list items annotations source ih =>
    rw [waitingPlaces, idle _ simple]
    · rfl
    · simp
  | leaf value annotations source notList notMap =>
    rw [waitingPlaces, idle _ simple]
    · rfl
    · exact fun fields annotations source same => notMap fields (congrArg Node.value same)

/-- The places that are counted are those of the expressions that wait. -/
theorem Node.Ordinary.mem_waitingPlaces_iff (ordinary : node.Ordinary) (defaultKey : String)
    {p : List String} : p ∈ node.waitingPlaces place ↔
      ∃ path found, p = place ++ path ∧ node.lookup? path defaultKey = some found ∧
        found.waits = true := by
  induction ordinary generalizing place p with
  | simple simple =>
    rw [Node.waitingPlaces_of_isSimple simple]
    refine ⟨nofun, ?_⟩
    rintro ⟨path, found, -, reaches, waits⟩
    obtain ⟨⟨e, written⟩, -⟩ := Node.waits_iff.mp waits
    rw [Node.expr?_of_isSimple (Node.isSimple_of_lookup? simple reaches)] at written
    cases written
  | @map fields source distinct plain inside ih =>
    rw [Node.waitingPlaces_map, fieldsWaitingPlaces_eq_flatMap, List.mem_flatMap]
    constructor
    · rintro ⟨field, member, within⟩
      obtain ⟨path, found, rfl, reaches, waits⟩ := (ih field member).mp within
      refine ⟨field.1 :: path, found, List.append_assoc .., ?_, waits⟩
      rw [Node.lookup?_map_cons, Fields.find?_of_mem distinct member]
      exact reaches
    · rintro ⟨path, found, rfl, reaches, waits⟩
      cases path with
      | nil =>
        cases reaches
        cases waits
      | cons segment rest =>
        rw [Node.lookup?_map_cons] at reaches
        obtain ⟨child, known, below⟩ := Option.bind_eq_some_iff.mp reaches
        have member := Fields.mem_of_find? known
        exact ⟨_, member, (ih _ member).mpr ⟨rest, found, List.append_cons .., below, waits⟩⟩
  | @expression node e written plain clear =>
    rw [Node.waitingPlaces_of_expr? written]
    constructor
    · intro member
      split at member
      · next waits =>
        rw [List.mem_singleton.mp member]
        exact ⟨[], node, (List.append_nil _).symm, rfl, waits⟩
      · cases member
    · rintro ⟨path, found, rfl, reaches, waits⟩
      cases path with
      | nil =>
        cases reaches
        rw [if_pos waits, List.append_nil]
        exact List.mem_singleton_self _
      | cons segment rest =>
        rw [Node.lookup?_cons_of_expr? written] at reaches
        cases reaches

/-- The places of the expressions that wait when the tree has received outcomes. -/
def Node.waitingAfter (outcomes : Outcomes) (node : Node) (place : List String) :
    List (List String) :=
  (node.advance outcomes place).elim [] fun next => next.waitingPlaces place

theorem fieldsWaitingPlaces_advanceFields {fields : Fields Node} :
    fieldsWaitingPlaces (advanceFields outcomes fields place) place =
      fields.flatMap fun field => field.2.waitingAfter outcomes (place ++ [field.1]) := by
  induction fields with
  | nil => rw [advanceFields, fieldsWaitingPlaces, List.flatMap_nil]
  | cons field rest ih =>
    rw [advanceFields, List.flatMap_cons, ← ih, Node.waitingAfter]
    cases field.2.advance outcomes (place ++ [field.1]) with
    | none => rfl
    | some next => exact fieldsWaitingPlaces.eq_2 ..

/-- Where no list has grown and all of them together have not shrunk, each has its length. -/
theorem length_flatMap_le {α β : Type} {items : List α} {f g : α → List β}
    (shrinks : ∀ item ∈ items, (f item).length ≤ (g item).length) :
    (items.flatMap f).length ≤ (items.flatMap g).length ∧
      ((items.flatMap g).length ≤ (items.flatMap f).length →
        ∀ item ∈ items, (g item).length ≤ (f item).length) := by
  induction items with
  | nil => exact ⟨Nat.le_refl _, fun _ => nofun⟩
  | cons item rest ih =>
    obtain ⟨first, others⟩ := List.forall_mem_cons.mp shrinks
    obtain ⟨less, equal⟩ := ih others
    simp only [List.flatMap_cons, List.length_append]
    refine ⟨by omega, fun total => List.forall_mem_cons.mpr ⟨by omega, equal (by omega)⟩⟩

/-- No expression starts to wait. If as many wait as before, nothing has been settled. -/
theorem Node.Ordinary.waitingAfter_le (ordinary : node.Ordinary) (simple : outcomes.AreSimple)
    (continues : Continues outcomes defaultKey True node place) :
    (node.waitingAfter outcomes place).length ≤ (node.waitingPlaces place).length ∧
      ((node.waitingPlaces place).length ≤ (node.waitingAfter outcomes place).length →
        Continues outcomes defaultKey False node place) := by
  induction ordinary generalizing place with
  | simple whole =>
    rw [Node.waitingAfter, Node.advance_of_isSimple whole]
    refine ⟨Nat.le_refl _, fun _ path found e reaches written => ?_⟩
    rw [Node.expr?_of_isSimple (Node.isSimple_of_lookup? whole reaches)] at written
    cases written
  | @map fields source distinct plain inside ih =>
    have each := fun field member =>
      ih field member (continues.field (Fields.find?_of_mem distinct member))
    rw [Node.waitingAfter, Node.advance_map, Node.waitingPlaces_map, Option.elim_some,
      Node.waitingPlaces_map, fieldsWaitingPlaces_advanceFields, fieldsWaitingPlaces_eq_flatMap]
    obtain ⟨less, equal⟩ := length_flatMap_le fun field member => (each field member).1
    refine ⟨less, fun total path found e reaches written => ?_⟩
    cases path with
    | nil =>
      cases reaches
      cases written
    | cons segment rest =>
      rw [Node.lookup?_map_cons] at reaches
      obtain ⟨child, known, below⟩ := Option.bind_eq_some_iff.mp reaches
      have member := Fields.mem_of_find? known
      have goesOn := (each _ member).2 (equal total _ member) rest found e below written
      rwa [List.append_assoc] at goesOn
  | @expression node e written plain clear =>
    have once := continues [] node e rfl written
    rw [List.append_nil] at once
    rw [Node.waitingAfter, Node.waitingPlaces_of_expr? written, Node.waits_of_expr? written]
    rcases Node.advance_expression place simple written plain clear with
      ⟨r, outcome, whole⟩ | ⟨u, outcome, still⟩
    · -- The expression has got a value or has been removed, so it waited before and is settled.
      rcases once with ⟨u, fails, -⟩ | ⟨-, waits⟩
      · rw [outcome] at fails
        cases fails
      · have settled : (node.advance outcomes place).elim [] (·.waitingPlaces place) = [] := by
          cases advances : node.advance outcomes place with
          | none => rfl
          | some next => exact Node.waitingPlaces_of_isSimple (whole next advances).1
        rw [settled, if_pos (decide_eq_true waits)]
        exact ⟨Nat.zero_le _, nofun⟩
    · rw [still, Option.elim_some, Node.waitingPlaces_of_expr? Node.expr?_stillExpression,
        Node.waits_of_expr? Node.expr?_stillExpression, kindOf_stillExpression]
      have alone (alike : u.kind = Report.kindOf node.annotations) :
          Continues outcomes defaultKey False node place := by
        intro path found e' reaches written'
        cases path with
        | nil =>
          cases reaches
          rw [written] at written'
          cases written'
          exact .inl ⟨u, by rwa [List.append_nil], alike⟩
        | cons segment rest =>
          rw [Node.lookup?_cons_of_expr? written] at reaches
          cases reaches
      rcases once with ⟨u', same, alike⟩ | ⟨-, waits⟩
      · rw [outcome] at same
        cases same
        rw [alike]
        exact ⟨Nat.le_refl _, fun _ => alone alike⟩
      · rw [if_pos (decide_eq_true waits), List.length_singleton]
        by_cases stays : u.kind = .unresolved
        · rw [if_pos (decide_eq_true stays)]
          exact ⟨Nat.le_refl _, fun _ => alone (stays.trans waits.symm)⟩
        · rw [if_neg (by simpa using stays)]
          exact ⟨Nat.zero_le _, nofun⟩

end

/-! ### Trees that look the same -/

section

variable {node : Node}

theorem Node.Ordinary.same_self (ordinary : node.Ordinary) : node.same node = true := by
  induction ordinary with
  | simple simple =>
    exact Node.same_of_data (Node.isInert_of_isPlainData (Node.isPlainData_of_isSimple simple))
  | @map fields source distinct plain inside ih =>
    have each : sameFields fields fields = true := by
      clear distinct plain inside
      induction fields with
      | nil => rw [sameFields]
      | cons field rest ihRest =>
        obtain ⟨key, child⟩ := field
        simp_all [sameFields]
    simp [Node.same, Value.same, each]
  | @expression node e written plain clear =>
    obtain ⟨value, annotations, source⟩ := node
    cases value with
    | expression e' =>
      cases written
      simp [Node.same, Value.same, Expr.same_self_of_isOrdinary plain]
    | string text => simp [Node.same, Value.same]
    | _ => cases written

/-- In trees that look the same, the same expressions wait. -/
theorem Node.waitingPlaces_of_same {a b : Node} {place : List String} (same : a.same b = true) :
    a.waitingPlaces place = b.waitingPlaces place := by
  induction a using Node.treeInduction generalizing b place with
  | map fields annotations source ih =>
    obtain ⟨value', annotations', source'⟩ := b
    obtain ⟨fields', rfl, alike⟩ := Value.eq_map_of_same (Node.same_iff.mp same).1
    rw [waitingPlaces_map, waitingPlaces_map]
    clear same
    induction fields generalizing fields' with
    | nil =>
      cases fields' with
      | nil => rfl
      | cons _ _ => simp [sameFields] at alike
    | cons field rest ihRest =>
      obtain ⟨key, child⟩ := field
      cases fields' with
      | nil => simp [sameFields] at alike
      | cons field' rest' =>
        obtain ⟨key', child'⟩ := field'
        simp only [sameFields, Bool.and_eq_true, beq_iff_eq] at alike
        obtain ⟨⟨rfl, first⟩, others⟩ := alike
        rw [fieldsWaitingPlaces, fieldsWaitingPlaces, ih _ List.mem_cons_self first,
          ihRest (fun field member => ih field (List.mem_cons_of_mem _ member)) rest' others]
  | list items annotations source ih =>
    obtain ⟨value', annotations', source'⟩ := b
    obtain ⟨items', rfl, -⟩ := Value.eq_list_of_same (Node.same_iff.mp same).1
    simp [waitingPlaces, waits, expr?]
  | leaf value annotations source notList notMap =>
    obtain ⟨value', annotations', source'⟩ := b
    obtain ⟨alike, rfl, rfl⟩ := Node.same_iff.mp same
    cases value <;> cases value' <;> simp_all [Value.same, waitingPlaces, waits, expr?]

end

/-! ### What is left of a document -/

/-- The expressions of a tree stand in another one too, and the maps around them have no names but
those that they have there. -/
structure Node.IsLeftOf (defaultKey : String) (tree root : Node) : Prop where
  expressions : ∀ place left e, tree.lookup? place defaultKey = some left → left.expr? = some e →
    ∃ found, root.lookup? place defaultKey = some found ∧ found.expr? = some e
  names : ∀ place left e name depth, tree.lookup? place defaultKey = some left →
    left.expr? = some e → depth < place.length →
    hasNameAt defaultKey tree place name depth = true →
    hasNameAt defaultKey root place name depth = true

namespace Node.IsLeftOf

variable {defaultKey : String} {tree middle root : Node}

theorem refl : root.IsLeftOf defaultKey root :=
  ⟨fun _ left _ stands written => ⟨left, stands, written⟩, fun _ _ _ _ _ _ _ _ named => named⟩

theorem trans (later : tree.IsLeftOf defaultKey middle)
    (earlier : middle.IsLeftOf defaultKey root) : tree.IsLeftOf defaultKey root := by
  constructor
  · intro place left e stands written
    obtain ⟨found, reaches, before⟩ := later.expressions place left e stands written
    exact earlier.expressions place found e reaches before
  · intro place left e name depth stands written around named
    obtain ⟨found, reaches, before⟩ := later.expressions place left e stands written
    exact earlier.names place found e name depth reaches before around
      (later.names place left e name depth stands written around named)

end Node.IsLeftOf

/-- A pass leaves expressions where they stood, and takes names away at most. -/
theorem OrdinarySnapshot.isLeftOf {engine : Engine} {deeper : Deeper} {s : Setting} {root : Node}
    (snapshot : OrdinarySnapshot engine deeper s root) (alone : s.IsAlone) :
    (s.after engine deeper root).IsLeftOf engine.defaultKey root := by
  have simple := snapshot.areSimple alone
  rcases snapshot.after_cases alone with advances | ⟨-, -, whole⟩
  · constructor
    · intro place left e stands written
      obtain ⟨found, -, reaches, before, -⟩ :=
        snapshot.ordinary.lookup?_of_advance simple advances stands written
      exact ⟨found, reaches, before⟩
    · intro place left e name depth stands written around named
      obtain ⟨found, -, reaches, before, -⟩ :=
        snapshot.ordinary.lookup?_of_advance simple advances stands written
      obtain ⟨fields, source, -, distinct, -, here, there⟩ :=
        lookup?_around snapshot.ordinary simple snapshot.continues advances reaches before around
      rw [hasNameAt, there, Option.bind_some, Node.field?_map, find?_advanceFields distinct]
        at named
      rw [hasNameAt, here, Option.bind_some, Node.field?_map]
      cases known : Fields.find? fields name with
      | some child => rfl
      | none =>
        rw [known] at named
        cases named
  · constructor
    · intro place left e stands written
      rw [Node.expr?_of_isSimple (Node.isSimple_of_lookup? whole stands)] at written
      cases written
    · intro place left e name depth stands written
      rw [Node.expr?_of_isSimple (Node.isSimple_of_lookup? whole stands)] at written
      cases written

/-! ### Passes until nothing changes -/

section

variable {engine : Engine} {deeper : Deeper} {s : Setting} {root : Node} (alone : s.IsAlone)

include alone

theorem OrdinarySnapshot.waitingPlaces_after (snapshot : OrdinarySnapshot engine deeper s root) :
    (s.after engine deeper root).waitingPlaces [] =
      root.waitingAfter (s.outcomes engine deeper root) [] := by
  rw [Node.waitingAfter]
  rcases snapshot.after_cases alone with advances | ⟨-, removed, simple⟩
  · rw [advances, Option.elim_some]
  · rw [removed, Node.waitingPlaces_of_isSimple simple, Option.elim_none]

/-- After a pass that has settled nothing, the next one changes nothing. -/
theorem OrdinarySnapshot.after_after (snapshot : OrdinarySnapshot engine deeper s root)
    (idle : (root.waitingPlaces []).length ≤
      ((s.after engine deeper root).waitingPlaces []).length) :
    s.after engine deeper (s.after engine deeper root) = s.after engine deeper root := by
  have simple := snapshot.areSimple alone
  rcases snapshot.after_cases alone with advances | ⟨-, -, whole⟩
  · rw [snapshot.waitingPlaces_after alone] at idle
    have still := (snapshot.ordinary.waitingAfter_le simple snapshot.continues).2 idle
    have same : (s.after engine deeper root).advance
        (s.outcomes engine deeper (s.after engine deeper root)) [] =
          some (s.after engine deeper root) :=
      snapshot.ordinary.advance_advance engine.defaultKey simple advances
        fun path found e reaches written =>
          (snapshot.outcomes_advance alone still advances reaches written).eq_of_not id
    conv_lhs => rw [Setting.after, same, Option.getD_some]
  · conv_lhs => rw [Setting.after, Node.advance_of_isSimple whole, Option.getD_some]

/-- Passes over an ordinary document reach a tree that they do not change any more, if there are two
more of them than expressions that wait. -/
theorem OrdinarySnapshot.settleWithin {passes : Nat}
    (snapshot : OrdinarySnapshot engine deeper s root)
    (enough : (root.waitingPlaces []).length + 2 ≤ passes) :
    ∃ tree, settleWithin engine deeper s passes root = pure (some tree) ∧
      OrdinarySnapshot engine deeper s tree ∧ s.after engine deeper tree = tree ∧
      tree.IsLeftOf engine.defaultKey root := by
  induction passes generalizing root with
  | zero => omega
  | succ passes ih =>
    have after := snapshot.after alone
    have left := snapshot.isLeftOf alone
    rw [Cascade.settleWithin, snapshot.pass alone, pure_bind]
    by_cases settles : ((s.after engine deeper root).waitingPlaces []).length <
        (root.waitingPlaces []).length
    · rw [if_neg fun same => ?_]
      · obtain ⟨tree, settled, goesOn, fixed, later⟩ := ih after (by omega)
        exact ⟨tree, settled, goesOn, fixed, later.trans left⟩
      · rw [Node.waitingPlaces_of_same same] at settles
        exact Nat.lt_irrefl _ settles
    · have fixed := snapshot.after_after alone (Nat.not_lt.mp settles)
      split
      · exact ⟨_, rfl, after, fixed, left⟩
      · obtain ⟨passes, rfl⟩ : ∃ n, passes = n + 1 := ⟨passes - 1, by omega⟩
        rw [Cascade.settleWithin, after.pass alone, pure_bind, fixed,
          if_pos after.ordinary.same_self]
        exact ⟨_, rfl, after, fixed, left⟩

end

/-! ### Reports of ordinary trees -/

/-- A report lists the expressions of an ordinary tree. -/
theorem Node.Ordinary.mem_entriesOf_iff {defaultKey : String} {node : Node} {place : List String}
    {entry : ReportEntry} (ordinary : node.Ordinary) :
    entry ∈ Report.entriesOf defaultKey node place ↔
      ∃ path found e, node.lookup? path defaultKey = some found ∧ found.expr? = some e ∧
        Report.entryOf? found (place ++ path) = some entry := by
  induction ordinary generalizing place with
  | simple simple =>
    have inert := Node.isInert_of_isPlainData (Node.isPlainData_of_isSimple simple)
    rw [entriesOf_of_shown (Node.isShown_of_isInert inert)]
    refine ⟨nofun, ?_⟩
    rintro ⟨path, found, e, reaches, written, -⟩
    rw [Node.expr?_of_isSimple (Node.isSimple_of_lookup? simple reaches)] at written
    cases written
  | @map fields source distinct plain inside ih =>
    have own : Report.entryOf? (Node.mk (.map fields) {} source) place = none := rfl
    have flat : Report.entriesOfFields defaultKey fields place =
        fields.flatMap fun field => Report.entriesOf defaultKey field.2 (place ++ [field.1]) := by
      clear ih distinct plain inside own
      induction fields with
      | nil => rw [Report.entriesOfFields, List.flatMap_nil]
      | cons field rest ih => rw [Report.entriesOfFields, List.flatMap_cons, ih]
    rw [Report.entriesOf, own, Report.entriesOfValue, flat, Option.toList_none, List.nil_append,
      List.mem_flatMap]
    constructor
    · rintro ⟨field, member, within⟩
      obtain ⟨path, found, e, reaches, written, shows⟩ := (ih field member).mp within
      refine ⟨field.1 :: path, found, e, ?_, written, by rwa [List.append_assoc] at shows⟩
      rw [Node.lookup?_map_cons, Fields.find?_of_mem distinct member]
      exact reaches
    · rintro ⟨path, found, e, reaches, written, shows⟩
      cases path with
      | nil =>
        cases reaches
        cases written
      | cons segment rest =>
        rw [Node.lookup?_map_cons] at reaches
        obtain ⟨child, known, below⟩ := Option.bind_eq_some_iff.mp reaches
        have member := Fields.mem_of_find? known
        refine ⟨_, member, (ih _ member).mpr ⟨rest, found, e, below, written, ?_⟩⟩
        rwa [List.append_assoc]
  | @expression node e written plain clear =>
    have alone : Report.entriesOf defaultKey node place =
        (Report.entryOf? node place).toList := by
      obtain ⟨value, annotations, source⟩ := node
      rw [Report.entriesOf]
      cases value with
      | list items => cases written
      | map fields => cases written
      | _ => exact List.append_nil _
    rw [alone, Option.mem_toList]
    constructor
    · exact fun shows => ⟨[], node, e, rfl, written, by rwa [List.append_nil]⟩
    · rintro ⟨path, found, e', reaches, -, shows⟩
      cases path with
      | nil =>
        cases reaches
        rwa [List.append_nil] at shows
      | cons segment rest =>
        rw [Node.lookup?_cons_of_expr? written] at reaches
        cases reaches

end Cascade
