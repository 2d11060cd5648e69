import Cascade.Proofs.Approximation

/-!
# Stages of a tree

A tree of maps, simple values and expressions passes through stages: at each stage some of its
expressions have received a value, which is final, and the others are still there. A stage is given
by the tree as it was written and the outcomes that have been received, so that the stages of two
trees can be compared place by place.

In a tree, expressions of some kind may be replaced by a map. A stage of the tree approximates a
stage of the tree with the replacements if whatever an expression has received there it has received
here as well, and where an expression is replaced, its value is what the map has become.

## Main definitions

* `Node.MadeOf`: trees whose expressions are of a kind; `Node.isMadeOf` recognises them.
* `Node.HasExpr`: where the expressions of a tree stand.
* `Node.stage`, `Delivers`, `Outcomes.keeping`: the stages of a tree.
* `Node.inlined`: the tree in which expressions are replaced.

## Main statements

* `Node.MadeOf.stage_advance`: a pass leads from a stage to a stage.
* `Node.MadeOf.approximates`: stages of a tree approximate those of the tree with replacements.
-/

namespace Cascade

/-! ### Trees made of expressions of a kind -/

/-- The tree consists of maps with plain keys, of simple values, and of expressions of a kind with
their diagnostics. -/
inductive Node.MadeOf (kind : Expr → Prop) : Node → Prop
  | simple {node : Node} (simple : node.isSimple = true) : MadeOf kind node
  | map {fields : Fields Node} {source : String} (distinct : (Fields.keys fields).Nodup)
    (plain : ∀ field ∈ fields, controlSuffix? field.1 = none)
    (inside : ∀ field ∈ fields, MadeOf kind field.2) : MadeOf kind ⟨.map fields, {}, source⟩
  | expression {node : Node} {e : Expr} (written : node.expr? = some e) (ofKind : kind e)
    (clear : node.annotations.clearIssue = {}) : MadeOf kind node

theorem Node.MadeOf.mono {kind wider : Expr → Prop} {node : Node} (made : node.MadeOf kind)
    (wide : ∀ e, kind e → wider e) : node.MadeOf wider := by
  induction made with
  | simple simple => exact .simple simple
  | map distinct plain inside ih => exact .map distinct plain ih
  | expression written ofKind clear => exact .expression written (wide _ ofKind) clear

theorem Node.MadeOf.field {kind : Expr → Prop} {fields : Fields Node} {annotations : Annotations}
    {source : String} (made : Node.MadeOf kind ⟨.map fields, annotations, source⟩)
    {field : String × Node} (member : field ∈ fields) :
    controlSuffix? field.1 = none ∧ field.2.MadeOf kind := by
  cases made with
  | simple simple =>
    have whole := Value.isSimple_map.mp (Node.isSimple_iff.mp simple).2 field member
    exact ⟨whole.1, .simple whole.2⟩
  | map distinct plain inside => exact ⟨plain field member, inside field member⟩
  | expression written => cases written

mutual

/-- The tree is recognised as one of expressions that pass a test. -/
def Node.isMadeOf (known : Expr → Bool) : Node → Bool
  | ⟨.map fields, annotations, _⟩ =>
    annotations.isPlain && decide (Fields.keys fields).Nodup && fieldsMadeOf known fields
  | node =>
    match node.expr? with
    | some e => known e && node.annotations.clearIssue.isPlain
    | none => node.isSimple

/-- The fields are recognised as those of a map of expressions that pass a test. -/
def fieldsMadeOf (known : Expr → Bool) : List (String × Node) → Bool
  | [] => true
  | (key, child) :: rest =>
    (controlSuffix? key).isNone && child.isMadeOf known && fieldsMadeOf known rest

end

theorem fieldsMadeOf_iff {known : Expr → Bool} {fields : Fields Node} :
    fieldsMadeOf known fields = true ↔
      ∀ field ∈ fields, controlSuffix? field.1 = none ∧ field.2.isMadeOf known = true := by
  induction fields with
  | nil => simp [fieldsMadeOf]
  | cons field rest ih =>
    rw [fieldsMadeOf, Bool.and_eq_true, Bool.and_eq_true, Option.isNone_iff_eq_none, ih,
      List.forall_mem_cons]

theorem Node.madeOf_of_isMadeOf {known : Expr → Bool} {node : Node}
    (recognised : node.isMadeOf known = true) : node.MadeOf fun e => known e = true := by
  have alone {node : Node} (notMap : ∀ fields, node.value ≠ .map fields)
      (recognised : node.isMadeOf known = true) : node.MadeOf fun e => known e = true := by
    rw [isMadeOf] at recognised
    · split at recognised
      · next e written =>
        rw [Bool.and_eq_true] at recognised
        exact .expression written recognised.1 (Annotations.eq_of_isPlain recognised.2)
      · exact .simple recognised
    · exact fun fields annotations source same => notMap fields (congrArg Node.value same)
  induction node using Node.treeInduction with
  | map fields annotations source ih =>
    rw [isMadeOf, Bool.and_eq_true, Bool.and_eq_true, decide_eq_true_iff] at recognised
    obtain ⟨⟨plain, distinct⟩, inside⟩ := recognised
    obtain rfl := Annotations.eq_of_isPlain plain
    have each := fieldsMadeOf_iff.mp inside
    exact .map distinct (fun field member => (each field member).1) fun field member =>
      ih field member (each field member).2
  | list items annotations source ih => exact alone (by simp) recognised
  | leaf value annotations source notList notMap => exact alone notMap recognised

/-! ### Where expressions stand -/

/-- An expression stands at a path. -/
def Node.HasExpr (defaultKey : String) (node : Node) (path : List String) (e : Expr) : Prop :=
  ∃ found, node.lookup? path defaultKey = some found ∧ found.expr? = some e

section

variable {defaultKey : String} {node child : Node} {path : List String} {e e' : Expr}
  {fields : Fields Node} {annotations : Annotations} {source key : String}

theorem Node.hasExpr_cons : (Node.mk (.map fields) annotations source).HasExpr defaultKey
    (key :: path) e ↔
      ∃ child, Fields.find? fields key = some child ∧ child.HasExpr defaultKey path e := by
  constructor
  · rintro ⟨found, finds, written⟩
    rw [lookup?_map_cons] at finds
    obtain ⟨child, known, below⟩ := Option.bind_eq_some_iff.mp finds
    exact ⟨child, known, found, below, written⟩
  · rintro ⟨child, known, found, below, written⟩
    refine ⟨found, ?_, written⟩
    rw [lookup?_map_cons, known]
    exact below

theorem Node.not_hasExpr_nil :
    ¬(Node.mk (.map fields) annotations source).HasExpr defaultKey [] e := by
  rintro ⟨found, finds, written⟩
  cases finds
  cases written

theorem Node.not_hasExpr_of_isSimple (simple : node.isSimple = true) :
    ¬node.HasExpr defaultKey path e := by
  rintro ⟨found, finds, written⟩
  rw [expr?_of_isSimple (isSimple_of_lookup? simple finds)] at written
  cases written

theorem Node.hasExpr_of_expr? (written : node.expr? = some e) :
    node.HasExpr defaultKey path e' ↔ path = [] ∧ e' = e := by
  constructor
  · rintro ⟨found, finds, written'⟩
    cases path with
    | nil =>
      cases finds
      rw [written] at written'
      exact ⟨rfl, (Option.some.inj written').symm⟩
    | cons segment rest =>
      rw [lookup?_cons_of_expr? written] at finds
      cases finds
  · rintro ⟨rfl, rfl⟩
    exact ⟨node, rfl, written⟩

/-- The expressions of a tree are of its kind. -/
theorem Node.MadeOf.ofKind {kind : Expr → Prop} (made : node.MadeOf kind)
    (stands : node.HasExpr defaultKey path e) : kind e := by
  induction made generalizing path with
  | simple simple => exact absurd stands (Node.not_hasExpr_of_isSimple simple)
  | map distinct plain inside ih =>
    cases path with
    | nil => exact absurd stands Node.not_hasExpr_nil
    | cons key rest =>
      obtain ⟨child, found, below⟩ := Node.hasExpr_cons.mp stands
      exact ih _ (Fields.mem_of_find? found) below
  | expression written ofKind clear =>
    obtain ⟨-, rfl⟩ := (Node.hasExpr_of_expr? written).mp stands
    exact ofKind

/-- No node of a tree carries a tag. -/
theorem Node.MadeOf.findTag? {kind : Expr → Prop} (made : node.MadeOf kind) (tag : String) :
    node.findTag? tag = none := by
  induction made with
  | simple simple => exact Node.findTag?_of_isSimple simple
  | map distinct plain inside ih =>
    rw [Node.findTag?_of_untagged rfl, Value.findTag?, findTagFields?_eq_none ih]
  | expression written ofKind clear =>
    exact Node.findTag?_of_expr? written (congrArg Annotations.tag clear)

/-- An expression stands among maps. -/
theorem Node.HasExpr.surrounds (stands : node.HasExpr defaultKey path e) :
    node.Surrounds defaultKey path := by
  obtain ⟨found, finds, written⟩ := stands
  intro depth around
  have split : path = path.take depth ++ path[depth] :: path.drop (depth + 1) := by
    rw [← List.drop_eq_getElem_cons, List.take_append_drop]
  rw [split, Node.lookup?_append] at finds
  obtain ⟨container, reaches, below⟩ := Option.bind_eq_some_iff.mp finds
  refine ⟨container, reaches, ?_⟩
  cases shape : container.expr? with
  | none => rfl
  | some other =>
    rw [Node.lookup?_cons_of_expr? shape] at below
    cases below

end

/-! ### Stages -/

/-- An expression at a place has received a value. -/
def Delivers (received : Option Outcomes) (e : Expr) (place : List String) (r : Resolved) : Prop :=
  ∃ outcomes, received = some outcomes ∧ outcomes e place = .ok r

/-- The tree at a place with the outcomes that its expressions have received, or as it was written
before there are any. -/
def Node.stage (received : Option Outcomes) (node : Node) (place : List String) : Option Node :=
  received.elim (some node) fun outcomes => node.advance outcomes place

/-- The fields of the map at a place with the outcomes that have been received. -/
def stageFields (received : Option Outcomes) (fields : Fields Node) (place : List String) :
    Fields Node :=
  received.elim fields fun outcomes => advanceFields outcomes fields place

/-- The outcomes of expressions that have not received a value; the others keep theirs. -/
def Outcomes.keeping (received : Option Outcomes) (outcomes : Outcomes) : Outcomes :=
  fun e place =>
    match received with
    | none => outcomes e place
    | some before =>
      match before e place with
      | .ok r => .ok r
      | .error _ => outcomes e place

section

variable {received : Option Outcomes} {outcomes : Outcomes} {e : Expr} {r r' : Resolved}
  {node : Node} {place : List String} {fields : Fields Node} {source : String}

theorem Delivers.unique (delivers : Delivers received e place r)
    (delivers' : Delivers received e place r') : r' = r := by
  obtain ⟨before, rfl, outcome⟩ := delivers
  obtain ⟨_, ⟨⟩, outcome'⟩ := delivers'
  rw [outcome] at outcome'
  cases outcome'
  rfl

theorem Outcomes.keeping_of_delivers (delivers : Delivers received e place r) :
    outcomes.keeping received e place = .ok r := by
  obtain ⟨before, rfl, outcome⟩ := delivers
  simp only [keeping, outcome]

theorem Outcomes.keeping_of_not (none : ∀ r, ¬Delivers received e place r) :
    outcomes.keeping received e place = outcomes e place := by
  cases received with
  | none => rfl
  | some before =>
    rw [keeping]
    cases outcome : before e place with
    | ok r => exact absurd ⟨before, rfl, outcome⟩ (none r)
    | error u => rfl

theorem delivers_some : Delivers (some outcomes) e place r ↔ outcomes e place = .ok r := by
  constructor
  · rintro ⟨_, ⟨⟩, outcome⟩
    exact outcome
  · exact fun outcome => ⟨outcomes, rfl, outcome⟩

/-- What has been delivered after a pass: what was, and what the pass delivers of the rest. -/
theorem delivers_keeping : Delivers (some (outcomes.keeping received)) e place r ↔
    Delivers received e place r ∨
      (∀ r, ¬Delivers received e place r) ∧ outcomes e place = .ok r := by
  rw [delivers_some]
  by_cases before : ∃ r, Delivers received e place r
  · obtain ⟨r', delivers⟩ := before
    rw [Outcomes.keeping_of_delivers delivers]
    constructor
    · rintro ⟨⟩
      exact .inl delivers
    · rintro (again | ⟨none, -⟩)
      · rw [delivers.unique again]
      · exact absurd delivers (none r')
  · have none := not_exists.mp before
    rw [Outcomes.keeping_of_not none]
    exact ⟨fun outcome => .inr ⟨none, outcome⟩, fun outcome => (outcome.resolve_left (none r)).2⟩

theorem Node.stage_map {annotations : Annotations} :
    (Node.mk (.map fields) annotations source).stage received place =
      some ⟨.map (stageFields received fields place), annotations, source⟩ := by
  cases received with
  | none => rfl
  | some outcomes => exact Node.advance_map

theorem Node.stage_of_isSimple (simple : node.isSimple = true) :
    node.stage received place = some node := by
  cases received with
  | none => rfl
  | some outcomes => exact Node.advance_of_isSimple simple place

/-- The fields at a stage are those of the written map, each at its stage. -/
theorem stageFields_eq_pick (distinct : (Fields.keys fields).Nodup) :
    stageFields received fields place = Fields.pick (Fields.keys fields) fun key =>
      (Fields.find? fields key).bind fun child => child.stage received (place ++ [key]) := by
  cases received with
  | none =>
    refine (Fields.pick_find? distinct).symm.trans (Fields.pick_congr fun key member => ?_)
    exact (Option.bind_fun_some _).symm
  | some outcomes =>
    rw [stageFields, Option.elim_some, advanceFields_eq_filterMap]
    conv_lhs => rw [← Fields.pick_find? distinct]
    exact Fields.filterMap_pick fun key (child : Node) => child.advance outcomes (place ++ [key])

theorem find?_stageFields {key : String} (distinct : (Fields.keys fields).Nodup) :
    Fields.find? (stageFields received fields place) key =
      (Fields.find? fields key).bind fun child => child.stage received (place ++ [key]) := by
  rw [stageFields_eq_pick distinct, Fields.find?_pick]
  split
  · rfl
  · next missing =>
    have absent : Fields.find? fields key = none := Fields.find?_eq_none_iff.mpr
      fun field member same => missing (same ▸ List.mem_map_of_mem member)
    rw [absent, Option.bind_none]

/-- An expression that has received a value has become its node; another one is still there. -/
theorem Node.stage_of_expr? (received : Option Outcomes) (place : List String)
    (written : node.expr? = some e) :
    (∃ r, Delivers received e place r ∧ node.stage received place = resolvedNode node e r) ∨
    (∀ r, ¬Delivers received e place r) ∧ ∃ left, node.stage received place = some left ∧
      left.expr? = some e ∧ left.annotations.clearIssue = node.annotations.clearIssue ∧
      left.source = node.source := by
  cases received with
  | none =>
    refine .inr ⟨fun r => ?_, node, rfl, written, rfl, rfl⟩
    rintro ⟨_, ⟨⟩, -⟩
  | some outcomes =>
    rw [stage, Option.elim_some, advance_of_expr? written]
    cases outcome : outcomes e place with
    | ok r => exact .inl ⟨r, delivers_some.mpr outcome, rfl⟩
    | error u =>
      refine .inr ⟨fun r delivers => ?_, _, rfl, expr?_stillExpression, rfl, rfl⟩
      rw [delivers_some.mp delivers] at outcome
      cases outcome

/-- A simple value has the node of its own, without annotations. -/
theorem resolvedNode_of_isSimple (unmarked : e.staticInfo = {})
    (clear : node.annotations.clearIssue = {}) (simple : r.IsSimple) :
    resolvedNode node e r = none ∨
      resolvedNode node e r = some ⟨r.value, {}, node.source⟩ ∧ r.info = {} := by
  rw [resolvedNode, clear, unmarked]
  rcases simple.info with noted | noted
  · rw [noted]
    exact .inr ⟨rfl, rfl⟩
  · rw [noted]
    exact .inl rfl

theorem resolvedNode_congr {other : Node}
    (alike : node.annotations.clearIssue = other.annotations.clearIssue)
    (source : node.source = other.source) : resolvedNode node e r = resolvedNode other e r := by
  rw [resolvedNode, resolvedNode, alike, source]

theorem Node.stillExpression_congr {other : Node} {u : Unresolved}
    (alike : node.annotations.clearIssue = other.annotations.clearIssue)
    (source : node.source = other.source) :
    node.stillExpression e u = other.stillExpression e u := by
  have shape (node : Node) : node.stillExpression e u =
      ⟨.expression e,
        { node.annotations.clearIssue with
          hasError := u.isError, failed := u.info.failed, issue := u.info.issue }, node.source⟩ := rfl
  rw [shape, shape, alike, source]

end

/-! ### From stage to stage -/

section

variable {kind : Expr → Prop} {received : Option Outcomes} {outcomes : Outcomes}
  {defaultKey : String} {node next : Node} {place : List String}

/-- The values that the expressions of a tree at a place have received are simple. -/
def Node.ReceivesSimple (defaultKey : String) (received : Option Outcomes) (node : Node)
    (place : List String) : Prop :=
  ∀ path e r, node.HasExpr defaultKey path e → Delivers received e (place ++ path) r → r.IsSimple

theorem Node.ReceivesSimple.field {fields : Fields Node} {annotations : Annotations}
    {source key : String} {child : Node}
    (simple : Node.ReceivesSimple defaultKey received ⟨.map fields, annotations, source⟩ place)
    (known : Fields.find? fields key = some child) :
    child.ReceivesSimple defaultKey received (place ++ [key]) := by
  intro path e r stands delivers
  rw [List.append_assoc] at delivers
  exact simple (key :: path) e r (Node.hasExpr_cons.mpr ⟨child, known, stands⟩) delivers

theorem Node.ReceivesSimple.here {e : Expr} {r : Resolved}
    (simple : node.ReceivesSimple defaultKey received place) (written : node.expr? = some e)
    (delivers : Delivers received e place r) : r.IsSimple :=
  simple [] e r ((Node.hasExpr_of_expr? written).mpr ⟨rfl, rfl⟩) (by rwa [List.append_nil])

namespace Node.MadeOf

variable (made : node.MadeOf kind) (unmarked : ∀ e, kind e → e.staticInfo = {})
  (simple : node.ReceivesSimple defaultKey received place)

include made unmarked simple

/-- The stages of a tree are made of expressions of its kind. -/
theorem stage (stands : node.stage received place = some next) : next.MadeOf kind := by
  induction made generalizing place next with
  | simple whole =>
    rw [Node.stage_of_isSimple whole] at stands
    cases stands
    exact .simple whole
  | @map fields source distinct plain inside ih =>
    rw [Node.stage_map, stageFields_eq_pick distinct] at stands
    cases stands
    have each : ∀ key child, (Fields.find? fields key).bind
        (fun child => child.stage received (place ++ [key])) = some child →
        controlSuffix? key = none ∧ child.MadeOf kind := by
      intro key child becomes
      obtain ⟨before, known, stands⟩ := Option.bind_eq_some_iff.mp becomes
      have member := Fields.mem_of_find? known
      exact ⟨plain _ member, ih _ member (simple.field known) stands⟩
    refine .map (distinct.sublist Fields.keys_pick_sublist) ?_ ?_
    · intro field member
      exact (each _ _ (Fields.mem_pick.mp member).2).1
    · intro field member
      exact (each _ _ (Fields.mem_pick.mp member).2).2
  | @expression node e written ofKind clear =>
    rcases Node.stage_of_expr? received place written with
      ⟨r, delivers, becomes⟩ | ⟨-, left, becomes, still, annotations, -⟩
    · rw [becomes] at stands
      have whole := simple.here written delivers
      rcases resolvedNode_of_isSimple (unmarked e ofKind) clear whole with removed | ⟨node, -⟩
      · rw [removed] at stands
        cases stands
      · rw [node] at stands
        cases stands
        exact .simple (Node.isSimple_plain.mpr whole.value)
    · rw [becomes] at stands
      cases stands
      exact .expression still ofKind (annotations.trans clear)

omit unmarked simple in
/-- Only an expression that has received a value disappears. -/
theorem exists_of_stage_eq_none (removed : node.stage received place = none) :
    ∃ e r, node.expr? = some e ∧ Delivers received e place r := by
  cases made with
  | simple whole =>
    rw [Node.stage_of_isSimple whole] at removed
    cases removed
  | map distinct plain inside =>
    rw [Node.stage_map] at removed
    cases removed
  | @expression _ e written ofKind clear =>
    rcases Node.stage_of_expr? received place written with
      ⟨r, delivers, -⟩ | ⟨-, left, becomes, -⟩
    · exact ⟨e, r, written, delivers⟩
    · rw [becomes] at removed
      cases removed

/-- The expressions of a stage are those that have not received a value. -/
theorem hasExpr_stage {path : List String} {e : Expr}
    (stands : node.stage received place = some next) :
    next.HasExpr defaultKey path e ↔
      node.HasExpr defaultKey path e ∧ ∀ r, ¬Delivers received e (place ++ path) r := by
  induction made generalizing place next path with
  | simple whole =>
    rw [Node.stage_of_isSimple whole] at stands
    cases stands
    exact iff_of_false (Node.not_hasExpr_of_isSimple whole)
      fun ⟨stands, _⟩ => Node.not_hasExpr_of_isSimple whole stands
  | @map fields source distinct plain inside ih =>
    rw [Node.stage_map] at stands
    cases stands
    cases path with
    | nil => exact iff_of_false Node.not_hasExpr_nil fun ⟨stands, _⟩ => Node.not_hasExpr_nil stands
    | cons key rest =>
      rw [Node.hasExpr_cons, Node.hasExpr_cons, find?_stageFields distinct]
      cases known : Fields.find? fields key with
      | none => simp
      | some child =>
        have below {later : Node} (becomes : child.stage received (place ++ [key]) = some later) :
            later.HasExpr defaultKey rest e ↔ child.HasExpr defaultKey rest e ∧
              ∀ r, ¬Delivers received e (place ++ [key] ++ rest) r :=
          ih _ (Fields.mem_of_find? known) (simple.field known) becomes
        rw [List.append_assoc] at below
        rw [Option.bind_some]
        constructor
        · rintro ⟨later, becomes, stands⟩
          obtain ⟨before, none⟩ := (below becomes).mp stands
          exact ⟨⟨child, rfl, before⟩, none⟩
        · rintro ⟨⟨_, ⟨⟩, before⟩, waits⟩
          cases becomes : child.stage received (place ++ [key]) with
          | some later => exact ⟨later, rfl, (below becomes).mpr ⟨before, waits⟩⟩
          | none =>
            obtain ⟨e', r, written, delivers⟩ :=
              (inside _ (Fields.mem_of_find? known)).exists_of_stage_eq_none becomes
            obtain ⟨rfl, rfl⟩ := (Node.hasExpr_of_expr? written).mp before
            exact absurd delivers (waits r)
  | @expression node e' written ofKind clear =>
    rw [Node.hasExpr_of_expr? written]
    rcases Node.stage_of_expr? received place written with
      ⟨r, delivers, becomes⟩ | ⟨none, left, becomes, still, -⟩
    · have whole := simple.here written delivers
      rw [becomes] at stands
      refine iff_of_false ?_ ?_
      · rcases resolvedNode_of_isSimple (unmarked e' ofKind) clear whole with removed | ⟨node, -⟩
        · rw [removed] at stands
          cases stands
        · rw [node] at stands
          cases stands
          exact Node.not_hasExpr_of_isSimple (Node.isSimple_plain.mpr whole.value)
      · rintro ⟨⟨rfl, rfl⟩, none⟩
        rw [List.append_nil] at none
        exact none r delivers
    · rw [becomes] at stands
      cases stands
      rw [Node.hasExpr_of_expr? still]
      refine ⟨fun ⟨here, same⟩ => ⟨⟨here, same⟩, ?_⟩, And.left⟩
      subst here same
      rwa [List.append_nil]

/-- A pass leads from a stage to the stage at which what it delivers has been received as well. -/
theorem stage_advance : (node.stage received place).bind (fun child => child.advance outcomes place) =
    node.advance (outcomes.keeping received) place := by
  induction made generalizing place with
  | simple whole =>
    rw [Node.stage_of_isSimple whole, Node.advance_of_isSimple whole, Option.bind_some,
      Node.advance_of_isSimple whole]
  | @map fields source distinct plain inside ih =>
    have later : advanceFields (outcomes.keeping received) fields place =
        stageFields (some (outcomes.keeping received)) fields place := rfl
    rw [Node.stage_map, Option.bind_some, Node.advance_map, Node.advance_map, later,
      stageFields_eq_pick distinct, stageFields_eq_pick distinct, advanceFields_eq_filterMap,
      Fields.filterMap_pick fun key (child : Node) => child.advance outcomes (place ++ [key])]
    rw [Fields.pick_congr fun key member => ?_]
    cases known : Fields.find? fields key with
    | none => rfl
    | some child => exact ih _ (Fields.mem_of_find? known) (simple.field known)
  | @expression node e written ofKind clear =>
    rw [Node.advance_of_expr? written]
    rcases Node.stage_of_expr? received place written with
      ⟨r, delivers, becomes⟩ | ⟨none, left, becomes, still, alike, source⟩
    · have whole := simple.here written delivers
      rw [becomes, Outcomes.keeping_of_delivers delivers]
      dsimp only
      rcases resolvedNode_of_isSimple (unmarked e ofKind) clear whole with removed | ⟨kept, -⟩
      · rw [removed]
        rfl
      · rw [kept, Option.bind_some]
        exact Node.advance_of_isSimple (Node.isSimple_plain.mpr whole.value) place
    · rw [becomes, Outcomes.keeping_of_not none, Option.bind_some, Node.advance_of_expr? still]
      cases outcomes e place with
      | ok r => exact resolvedNode_congr alike source
      | error u => exact congrArg some (Node.stillExpression_congr alike source)

omit unmarked simple in
/-- What stands somewhere in the tree stands there at its stage. -/
theorem lookup?_stage {path : List String} {found : Node}
    (stands : node.stage received place = some next)
    (finds : node.lookup? path defaultKey = some found) :
    next.lookup? path defaultKey = found.stage received (place ++ path) := by
  induction made generalizing place next path with
  | simple whole =>
    rw [Node.stage_of_isSimple whole] at stands
    cases stands
    rw [finds, Node.stage_of_isSimple (Node.isSimple_of_lookup? whole finds)]
  | @map fields source distinct plain inside ih =>
    cases path with
    | nil =>
      cases finds
      rw [List.append_nil, stands]
      rfl
    | cons key rest =>
      rw [Node.lookup?_map_cons] at finds
      obtain ⟨child, known, below⟩ := Option.bind_eq_some_iff.mp finds
      rw [Node.stage_map] at stands
      cases stands
      rw [Node.lookup?_map_cons, find?_stageFields distinct, known, Option.bind_some]
      have member := Fields.mem_of_find? known
      cases becomes : child.stage received (place ++ [key]) with
      | some later => exact (ih _ member becomes below).trans (by simp)
      | none =>
        -- Only an expression disappears, and nothing stands below it.
        obtain ⟨e, r, written, -⟩ := (inside _ member).exists_of_stage_eq_none becomes
        cases rest with
        | nil =>
          cases below
          exact becomes.symm
        | cons key rest =>
          rw [Node.lookup?_cons_of_expr? written] at below
          cases below
  | expression written ofKind clear =>
    cases path with
    | nil =>
      cases finds
      rw [List.append_nil, stands]
      rfl
    | cons key rest =>
      rw [Node.lookup?_cons_of_expr? written] at finds
      cases finds

end Node.MadeOf

end

/-! ### Replacing expressions -/

mutual

/-- The tree in which expressions of some kind are replaced by a map. -/
def Node.inlined (replaces : Expr → Bool) (body : Fields Node) : Node → Node
  | ⟨.map fields, annotations, source⟩ =>
    ⟨.map (fieldsInlined replaces body fields), annotations, source⟩
  | node => if node.expr?.any replaces then ⟨.map body, {}, node.source⟩ else node

/-- The fields in which expressions of some kind are replaced by a map. -/
def fieldsInlined (replaces : Expr → Bool) (body : Fields Node) :
    List (String × Node) → List (String × Node)
  | [] => []
  | (key, child) :: rest => (key, child.inlined replaces body) :: fieldsInlined replaces body rest

end

section

variable {replaces : Expr → Bool} {body fields : Fields Node} {node : Node} {e : Expr}
  {defaultKey : String}

theorem fieldsInlined_eq_map : fieldsInlined replaces body fields =
    fields.map fun field => (field.1, field.2.inlined replaces body) := by
  induction fields with
  | nil => rw [fieldsInlined, List.map_nil]
  | cons field rest ih => rw [fieldsInlined, ih, List.map_cons]

theorem keys_fieldsInlined :
    Fields.keys (fieldsInlined replaces body fields) = Fields.keys fields := by
  rw [fieldsInlined_eq_map, Fields.keys, List.map_map]
  rfl

theorem find?_fieldsInlined {key : String} : Fields.find? (fieldsInlined replaces body fields) key =
    (Fields.find? fields key).map fun child => child.inlined replaces body := by
  induction fields with
  | nil => rw [fieldsInlined]; rfl
  | cons field rest ih =>
    rw [fieldsInlined, Fields.find?_cons, Fields.find?_cons, ih]
    split <;> rfl

theorem Node.inlined_map {annotations : Annotations} {source : String} :
    (Node.mk (.map fields) annotations source).inlined replaces body =
      ⟨.map (fieldsInlined replaces body fields), annotations, source⟩ := by
  rw [inlined]

theorem Node.inlined_of_ne_map (notMap : ∀ fields, node.value ≠ .map fields) :
    node.inlined replaces body =
      if node.expr?.any replaces then ⟨.map body, {}, node.source⟩ else node := by
  rw [inlined]
  exact fun fields annotations source same => notMap fields (congrArg Node.value same)

theorem Node.inlined_of_expr? (written : node.expr? = some e) :
    node.inlined replaces body = if replaces e then ⟨.map body, {}, node.source⟩ else node := by
  rw [inlined_of_ne_map (ne_map_of_expr? written), written, Option.any_some]

theorem fieldsInlined_eq_self
    (same : ∀ field ∈ fields, field.2.inlined replaces body = field.2) :
    fieldsInlined replaces body fields = fields := by
  rw [fieldsInlined_eq_map, List.map_congr_left fun field member => by rw [same field member],
    List.map_id']

/-- There is nothing to replace in simple values. -/
theorem Node.inlined_of_isSimple (simple : node.isSimple = true) :
    node.inlined replaces body = node := by
  induction node using Node.treeInduction with
  | map fields annotations source ih =>
    have inside := Value.isSimple_map.mp (Node.isSimple_iff.mp simple).2
    rw [inlined_map, fieldsInlined_eq_self fun field member => ih field member (inside field member).2]
  | list items annotations source ih =>
    rw [inlined_of_ne_map (by simp), expr?_of_isSimple simple]
    rfl
  | leaf value annotations source notList notMap =>
    rw [inlined_of_ne_map notMap, expr?_of_isSimple simple]
    rfl

theorem Node.MadeOf.withSource {kind : Expr → Prop} {source : String}
    (made : Node.MadeOf kind ⟨.map body, {}, source⟩) (other : String) :
    Node.MadeOf kind ⟨.map body, {}, other⟩ := by
  cases made with
  | simple simple => exact .simple (Node.isSimple_iff.mpr (Node.isSimple_iff.mp simple))
  | map distinct plain inside => exact .map distinct plain inside
  | expression written => cases written

/-- A tree without expressions that are replaced stays as it is. -/
theorem Node.MadeOf.inlined_eq_self {kind : Expr → Prop} (made : node.MadeOf kind)
    (none : ∀ e, kind e → replaces e = false) : node.inlined replaces body = node := by
  induction made with
  | simple simple => exact Node.inlined_of_isSimple simple
  | map distinct plain inside ih => rw [Node.inlined_map, fieldsInlined_eq_self ih]
  | expression written ofKind clear =>
    rw [Node.inlined_of_expr? written, none _ ofKind, if_neg Bool.false_ne_true]

/-- Where nothing is replaced, a tree stays as it is. -/
theorem fieldsInlined_nothing : fieldsInlined (fun _ => false) body fields = fields := by
  refine fieldsInlined_eq_self fun field _ => ?_
  generalize field.2 = node
  induction node using Node.treeInduction with
  | map fields annotations source ih => rw [Node.inlined_map, fieldsInlined_eq_self ih]
  | list items annotations source ih => rw [Node.inlined_of_ne_map (by simp)]; simp
  | leaf value annotations source notList notMap => rw [Node.inlined_of_ne_map notMap]; simp

/-- A tree with replacements is made of the other expressions and of those of the map. -/
theorem Node.MadeOf.inlined {kind rest : Expr → Prop} {source : String} (made : node.MadeOf kind)
    (inner : Node.MadeOf rest ⟨.map body, {}, source⟩)
    (others : ∀ e, kind e → replaces e = false → rest e) :
    (node.inlined replaces body).MadeOf rest := by
  induction made with
  | simple simple =>
    rw [Node.inlined_of_isSimple simple]
    exact .simple simple
  | map distinct plain inside ih =>
    rw [Node.inlined_map]
    refine .map (keys_fieldsInlined.symm ▸ distinct) ?_ ?_
    · rw [fieldsInlined_eq_map]
      exact List.forall_mem_map.mpr plain
    · rw [fieldsInlined_eq_map]
      exact List.forall_mem_map.mpr ih
  | expression written ofKind clear =>
    rw [Node.inlined_of_expr? written]
    split
    · exact inner.withSource _
    · next differs => exact .expression written (others _ ofKind (by simpa using differs)) clear

/-- What stands somewhere in the tree stands there with its replacements. -/
theorem Node.MadeOf.lookup?_inlined {kind : Expr → Prop} {path : List String} {found : Node}
    (made : node.MadeOf kind) (finds : node.lookup? path defaultKey = some found) :
    (node.inlined replaces body).lookup? path defaultKey = some (found.inlined replaces body) := by
  induction made generalizing path with
  | simple simple =>
    rw [Node.inlined_of_isSimple simple, finds,
      Node.inlined_of_isSimple (Node.isSimple_of_lookup? simple finds)]
  | map distinct plain inside ih =>
    cases path with
    | nil =>
      cases finds
      rfl
    | cons key rest =>
      rw [Node.lookup?_map_cons] at finds
      obtain ⟨child, known, below⟩ := Option.bind_eq_some_iff.mp finds
      rw [Node.inlined_map, Node.lookup?_map_cons, find?_fieldsInlined, known]
      exact ih _ (Fields.mem_of_find? known) below
  | expression written ofKind clear =>
    cases path with
    | nil =>
      cases finds
      rfl
    | cons key rest =>
      rw [Node.lookup?_cons_of_expr? written] at finds
      cases finds

end

/-! ### Stages that approximate each other -/

/-- What an expression has received at one place is final: it has received it at the other place as
well, or it is replaced there by a map that has become this value. -/
def Fits (replaces : Expr → Bool) (body : Fields Node) (received later : Option Outcomes) (e : Expr)
    (place place' : List String) : Prop :=
  ∀ r, Delivers received e place r → r.IsSimple ∧
    if replaces e then r = .ofValue (.map (stageFields later body place'))
    else Delivers later e place' r

section

variable {kind : Expr → Prop} {replaces : Expr → Bool} {body : Fields Node}
  {received later : Option Outcomes} {defaultKey : String} {node : Node} {place place' : List String}

/-- A stage approximates one at which more has been received. -/
theorem Node.MadeOf.approximates (made : node.MadeOf kind)
    (unmarked : ∀ e, kind e → e.staticInfo = {})
    (fits : ∀ path e, node.HasExpr defaultKey path e →
      Fits replaces body received later e (place ++ path) (place' ++ path)) :
    Approximates (node.stage received place)
      ((node.inlined replaces body).stage later place') := by
  induction made generalizing place place' with
  | simple simple =>
    rw [Node.inlined_of_isSimple simple, Node.stage_of_isSimple simple,
      Node.stage_of_isSimple simple]
    exact .simple simple
  | @map fields source distinct plain inside ih =>
    have distinct' : (Fields.keys (fieldsInlined replaces body fields)).Nodup :=
      keys_fieldsInlined.symm ▸ distinct
    rw [Node.inlined_map, Node.stage_map, Node.stage_map, stageFields_eq_pick distinct,
      stageFields_eq_pick distinct', keys_fieldsInlined]
    refine .map (List.forall_mem_map.mpr plain) fun key member => ?_
    rw [find?_fieldsInlined]
    cases known : Fields.find? fields key with
    | none => exact .absent
    | some child =>
      refine ih _ (Fields.mem_of_find? known) fun path e stands => ?_
      rw [List.append_assoc, List.append_assoc]
      exact fits (key :: path) e (Node.hasExpr_cons.mpr ⟨child, known, stands⟩)
  | @expression node e written ofKind clear =>
    have fit := fits [] e ((Node.hasExpr_of_expr? written).mpr ⟨rfl, rfl⟩)
    rw [List.append_nil, List.append_nil] at fit
    rcases Node.stage_of_expr? received place written with
      ⟨r, delivers, becomes⟩ | ⟨-, left, becomes, still, alike, -⟩
    · obtain ⟨simple, same⟩ := fit r delivers
      have either := resolvedNode_of_isSimple (unmarked e ofKind) clear simple
      rw [becomes, Node.inlined_of_expr? written]
      cases replaced : replaces e with
      | true =>
        rw [replaced, if_pos rfl] at same
        rw [if_pos rfl, Node.stage_map]
        subst same
        have kept : resolvedNode node e (.ofValue (.map (stageFields later body place'))) =
            some ⟨.map (stageFields later body place'), {}, node.source⟩ :=
          either.elim nofun And.left
        rw [kept]
        exact .simple (Node.isSimple_plain.mpr simple.value)
      | false =>
        rw [replaced, if_neg Bool.false_ne_true] at same
        have onward : node.stage later place' = resolvedNode node e r := by
          rcases Node.stage_of_expr? later place' written with
            ⟨r', delivers', becomes'⟩ | ⟨none, -⟩
          · rw [becomes', delivers'.unique same]
          · exact absurd same (none r)
        rw [if_neg Bool.false_ne_true, onward]
        rcases either with removed | ⟨kept, -⟩
        · rw [removed]
          exact .absent
        · rw [kept]
          exact .simple (Node.isSimple_plain.mpr simple.value)
    · rw [becomes]
      exact .expression still (alike.trans clear) _

end

end Cascade
