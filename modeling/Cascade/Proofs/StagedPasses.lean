import Mathlib.Algebra.GroupWithZero.Nat
import Cascade.Proofs.Stages
import Cascade.Proofs.Unread

/-!
# Passes from stage to stage

Where the expressions of a tree are evaluated without any other effect, a pass leads from one stage
of the tree to a later one. Either it leaves fewer expressions or it has delivered nothing; so the
number of expressions bounds the number of passes until nothing is delivered any more.

## Main definitions

* `Node.exprCount`: the number of expressions in the maps of a tree.

## Main statements

* `Node.MadeOf.exprCount_le`: a pass that leaves all expressions has delivered nothing.
* `Node.MadeOf.isSimple_of_unreported`: a stage that no report lists is simple.
* `flowNode_of_madeOf`: a pass has no effect but on the tree.
* `settleWithin_cases`, `settleWithin_of_falling`: what passes come to, and when they end.
-/

namespace Cascade

/-! ### Counting expressions -/

mutual

/-- The number of expressions in the maps of a tree. -/
def Node.exprCount : Node → Nat
  | ⟨.map fields, _, _⟩ => fieldsExprCount fields
  | node => if node.expr?.isSome then 1 else 0

/-- The number of expressions in fields. -/
def fieldsExprCount : List (String × Node) → Nat
  | [] => 0
  | (_, child) :: rest => child.exprCount + fieldsExprCount rest

end

section

variable {node : Node} {e : Expr} {fields : Fields Node} {annotations : Annotations}
  {source : String}

theorem Node.exprCount_map : (Node.mk (.map fields) annotations source).exprCount =
    (fields.map fun field => field.2.exprCount).sum := by
  rw [exprCount]
  induction fields with
  | nil => rw [fieldsExprCount, List.map_nil, List.sum_nil]
  | cons field rest ih => rw [fieldsExprCount, ih, List.map_cons, List.sum_cons]

theorem Node.exprCount_of_ne_map (notMap : ∀ fields, node.value ≠ .map fields) :
    node.exprCount = if node.expr?.isSome then 1 else 0 := by
  rw [exprCount]
  exact fun fields annotations source same => notMap fields (congrArg Node.value same)

theorem Node.exprCount_of_expr? (written : node.expr? = some e) : node.exprCount = 1 := by
  rw [exprCount_of_ne_map (ne_map_of_expr? written), written]
  rfl

theorem Node.exprCount_of_isSimple (simple : node.isSimple = true) : node.exprCount = 0 := by
  induction node using Node.treeInduction with
  | map fields annotations source ih =>
    have inside := Value.isSimple_map.mp (Node.isSimple_iff.mp simple).2
    rw [exprCount_map, List.sum_eq_zero_iff_forall_eq_nat, List.forall_mem_map]
    exact fun field member => ih field member (inside field member).2
  | list items annotations source ih =>
    rw [exprCount_of_ne_map (by simp), expr?_of_isSimple simple]
    rfl
  | leaf value annotations source notList notMap =>
    rw [exprCount_of_ne_map notMap, expr?_of_isSimple simple]
    rfl

/-- The expressions of a map are those of its fields. -/
theorem Node.exprCount_pick {keys : List String} {child : String → Option Node} :
    (Node.mk (.map (Fields.pick keys child)) annotations source).exprCount =
      (keys.map fun key => (child key).elim 0 exprCount).sum := by
  rw [exprCount_map, Fields.pick]
  induction keys with
  | nil => rfl
  | cons key rest ih =>
    rw [List.filterMap_cons, List.map_cons, List.sum_cons, ← ih]
    cases child key with
    | none => exact (Nat.zero_add _).symm
    | some value => rfl

/-- Trees that look the same have as many expressions. -/
theorem Node.exprCount_of_same {a b : Node} (same : a.same b = true) :
    a.exprCount = b.exprCount := by
  induction a using Node.treeInduction generalizing b with
  | map fields annotations source ih =>
    obtain ⟨value', annotations', source'⟩ := b
    obtain ⟨fields', rfl, alike⟩ := Value.eq_map_of_same (Node.same_iff.mp same).1
    rw [exprCount, exprCount]
    clear same
    induction fields generalizing fields' with
    | nil =>
      cases fields' with
      | nil => rfl
      | cons _ _ => simp [sameFields] at alike
    | cons field rest ihRest =>
      obtain ⟨key, child⟩ := field
      cases fields' with
      | nil => simp [sameFields] at alike
      | cons field' rest' =>
        obtain ⟨key', child'⟩ := field'
        simp only [sameFields, Bool.and_eq_true, beq_iff_eq] at alike
        obtain ⟨⟨-, first⟩, others⟩ := alike
        rw [fieldsExprCount, fieldsExprCount, ih _ List.mem_cons_self first,
          ihRest (fun field member => ih field (List.mem_cons_of_mem _ member)) rest' others]
  | list items annotations source ih =>
    obtain ⟨value', annotations', source'⟩ := b
    obtain ⟨items', rfl, -⟩ := Value.eq_list_of_same (Node.same_iff.mp same).1
    simp [exprCount, expr?]
  | leaf value annotations source notList notMap =>
    obtain ⟨value', annotations', source'⟩ := b
    have alike := (Node.same_iff.mp same).1
    rw [exprCount_of_ne_map notMap, exprCount_of_ne_map fun fields shape => ?_]
    · have read : (Node.mk value annotations source).expr?.isSome =
          (Node.mk value' annotations' source').expr?.isSome := by
        cases value <;> cases value' <;> simp_all [Value.same, expr?]
      rw [read]
    · cases value <;> simp_all [Value.same]

end

/-- Where no number has grown and their sum has not shrunk, each is what it was. -/
theorem sum_map_le {α : Type} {items : List α} {f g : α → Nat}
    (shrinks : ∀ item ∈ items, f item ≤ g item) :
    (items.map f).sum ≤ (items.map g).sum ∧
      ((items.map g).sum ≤ (items.map f).sum → ∀ item ∈ items, g item ≤ f item) := by
  induction items with
  | nil => exact ⟨Nat.le_refl _, fun _ => nofun⟩
  | cons item rest ih =>
    obtain ⟨first, others⟩ := List.forall_mem_cons.mp shrinks
    obtain ⟨less, equal⟩ := ih others
    simp only [List.map_cons, List.sum_cons]
    exact ⟨by omega, fun total => List.forall_mem_cons.mpr ⟨by omega, equal (by omega)⟩⟩

section

variable {kind : Expr → Prop} {outcomes : Outcomes} {defaultKey : String} {node next : Node}
  {place : List String}

/-- No expression comes up. If there are as many as before, none has received a value. -/
theorem Node.MadeOf.exprCount_le (made : node.MadeOf kind)
    (unmarked : ∀ e, kind e → e.staticInfo = {})
    (simple : node.ReceivesSimple defaultKey (some outcomes) place) :
    (node.advance outcomes place).elim 0 exprCount ≤ node.exprCount ∧
      (node.exprCount ≤ (node.advance outcomes place).elim 0 exprCount →
        ∀ path e r, node.HasExpr defaultKey path e → outcomes e (place ++ path) ≠ .ok r) := by
  induction made generalizing place with
  | simple whole =>
    rw [Node.advance_of_isSimple whole]
    exact ⟨Nat.le_refl _, fun _ path e r stands => absurd stands (Node.not_hasExpr_of_isSimple whole)⟩
  | @map fields source distinct plain inside ih =>
    have each := fun field member =>
      ih field member (simple.field (Fields.find?_of_mem distinct member))
    have later : stageFields (some outcomes) fields place =
        Fields.pick (Fields.keys fields) fun key =>
          (Fields.find? fields key).bind fun child => child.advance outcomes (place ++ [key]) :=
      stageFields_eq_pick distinct
    change advanceFields outcomes fields place = _ at later
    have counts : ∀ field ∈ fields,
        (((Fields.find? fields field.1).bind fun child =>
          child.advance outcomes (place ++ [field.1])).elim 0 exprCount) =
          (field.2.advance outcomes (place ++ [field.1])).elim 0 exprCount := by
      intro field member
      rw [Fields.find?_of_mem distinct member, Option.bind_some]
    rw [Node.advance_map, Option.elim_some, later, Node.exprCount_pick, Node.exprCount_map,
      Fields.keys, List.map_map]
    rw [List.map_congr_left (f := _ ∘ _) counts]
    obtain ⟨less, equal⟩ := sum_map_le fun field member => (each field member).1
    refine ⟨less, fun total path e r stands => ?_⟩
    cases path with
    | nil => exact absurd stands Node.not_hasExpr_nil
    | cons key rest =>
      obtain ⟨child, known, below⟩ := Node.hasExpr_cons.mp stands
      have member := Fields.mem_of_find? known
      have settled := (each _ member).2 (equal total _ member) rest e r below
      rwa [List.append_assoc] at settled
  | @expression node e written ofKind clear =>
    rw [Node.exprCount_of_expr? written]
    have advances : node.advance outcomes place = node.stage (some outcomes) place := rfl
    rcases Node.stage_of_expr? (some outcomes) place written with
      ⟨r, delivers, becomes⟩ | ⟨none, left, becomes, still, -⟩
    · have whole := simple.here written delivers
      have gone : (node.advance outcomes place).elim 0 exprCount = 0 := by
        rw [advances, becomes]
        rcases resolvedNode_of_isSimple (unmarked e ofKind) clear whole with removed | ⟨kept, -⟩
        · rw [removed]
          rfl
        · rw [kept]
          exact Node.exprCount_of_isSimple (Node.isSimple_plain.mpr whole.value)
      rw [gone]
      exact ⟨Nat.zero_le _, fun left => absurd left (by omega)⟩
    · rw [advances, becomes, Option.elim_some, Node.exprCount_of_expr? still]
      refine ⟨Nat.le_refl _, fun _ path e' r stands outcome => ?_⟩
      obtain ⟨rfl, rfl⟩ := (Node.hasExpr_of_expr? written).mp stands
      rw [List.append_nil] at outcome
      exact none r (delivers_some.mpr outcome)

/-- From a stage to the next one, no expression comes up. If there are as many as before, none that
waited has received a value. -/
theorem Node.MadeOf.exprCount_stage {received : Option Outcomes} (made : node.MadeOf kind)
    (unmarked : ∀ e, kind e → e.staticInfo = {})
    (simple : node.ReceivesSimple defaultKey received place)
    (known : ∀ path e r, node.HasExpr defaultKey path e → outcomes e (place ++ path) = .ok r →
      r.IsSimple) :
    (node.stage (some (outcomes.keeping received)) place).elim 0 exprCount ≤
        (node.stage received place).elim 0 exprCount ∧
      ((node.stage received place).elim 0 exprCount ≤
          (node.stage (some (outcomes.keeping received)) place).elim 0 exprCount →
        ∀ path e r, node.HasExpr defaultKey path e →
          (∀ r, ¬Delivers received e (place ++ path) r) → outcomes e (place ++ path) ≠ .ok r) := by
  have advances : node.stage (some (outcomes.keeping received)) place =
      (node.stage received place).bind fun child => child.advance outcomes place :=
    (made.stage_advance unmarked simple).symm
  rw [advances]
  cases becomes : node.stage received place with
  | none =>
    refine ⟨Nat.le_refl _, fun _ path e r stands waits => ?_⟩
    obtain ⟨e', r', written, delivers⟩ := made.exists_of_stage_eq_none becomes
    obtain ⟨rfl, rfl⟩ := (Node.hasExpr_of_expr? written).mp stands
    rw [List.append_nil] at waits
    exact absurd delivers (waits r')
  | some child =>
    rw [Option.bind_some, Option.elim_some]
    have left {path : List String} {e : Expr} : child.HasExpr defaultKey path e ↔
        node.HasExpr defaultKey path e ∧ ∀ r, ¬Delivers received e (place ++ path) r :=
      made.hasExpr_stage unmarked simple becomes
    have whole : child.ReceivesSimple defaultKey (some outcomes) place :=
      fun path e r stands delivers => known path e r (left.mp stands).1 (delivers_some.mp delivers)
    obtain ⟨less, equal⟩ := (made.stage unmarked simple becomes).exprCount_le unmarked whole
    exact ⟨less, fun total path e r stands waits => equal total path e r (left.mpr ⟨stands, waits⟩)⟩

/-- What a pass leaves is simple if no report lists any of it. -/
theorem Node.MadeOf.isSimple_of_unreported (made : node.MadeOf kind)
    (unmarked : ∀ e, kind e → e.staticInfo = {})
    (simple : node.ReceivesSimple defaultKey (some outcomes) place)
    (stands : node.advance outcomes place = some next) (unreported : next.isReported = false) :
    next.isSimple = true := by
  induction made generalizing place next with
  | simple whole =>
    rw [Node.advance_of_isSimple whole] at stands
    cases stands
    exact whole
  | @map fields source distinct plain inside ih =>
    rw [Node.advance_map] at stands
    cases stands
    rw [Node.isReported, Value.isReported, fieldsReported_eq_any, Bool.or_eq_false_iff,
      List.any_eq_false] at unreported
    refine Node.isSimple_iff.mpr ⟨rfl, Value.isSimple_map.mpr fun field member => ?_⟩
    obtain ⟨child, known, advances⟩ := mem_advanceFields.mp member
    have found := Fields.find?_of_mem distinct known
    exact ⟨plain (field.1, child) known, ih (field.1, child) known (simple.field found) advances
      (by simpa using unreported.2 field member)⟩
  | @expression node e written ofKind clear =>
    rw [Node.advance_of_expr? written] at stands
    cases outcome : outcomes e place with
    | ok r =>
      have whole := simple.here written (delivers_some.mpr outcome)
      rw [outcome] at stands
      dsimp only at stands
      rcases resolvedNode_of_isSimple (unmarked e ofKind) clear whole with removed | ⟨kept, -⟩
      · rw [removed] at stands
        cases stands
      · rw [kept] at stands
        cases stands
        exact Node.isSimple_plain.mpr whole.value
    | error u =>
      rw [outcome] at stands
      cases stands
      cases unreported

theorem length_eq_of_sameFields {fields fields' : Fields Node}
    (same : sameFields fields fields' = true) : fields.length = fields'.length := by
  induction fields generalizing fields' with
  | nil =>
    cases fields' with
    | nil => rfl
    | cons _ _ => simp [sameFields] at same
  | cons field rest ih =>
    cases fields' with
    | nil => simp [sameFields] at same
    | cons field' rest' =>
      obtain ⟨key, child⟩ := field
      obtain ⟨key', child'⟩ := field'
      simp only [sameFields, Bool.and_eq_true] at same
      rw [List.length_cons, List.length_cons, ih same.2]

/-- A pass that leaves a tree that looks the same has left the tree as it is. -/
theorem Node.MadeOf.eq_of_same (made : node.MadeOf kind)
    (unmarked : ∀ e, kind e → e.staticInfo = {})
    (simple : node.ReceivesSimple defaultKey (some outcomes) place)
    (stands : node.advance outcomes place = some next) (same : next.same node = true) :
    next = node := by
  induction made generalizing place next with
  | simple whole =>
    rw [Node.advance_of_isSimple whole] at stands
    exact (Option.some.inj stands).symm
  | @map fields source distinct plain inside ih =>
    rw [Node.advance_map] at stands
    cases stands
    have alike : sameFields (advanceFields outcomes fields place) fields = true := by
      simpa [Node.same, Value.same] using same
    have each : ∀ field ∈ fields, ∀ next, field.2.advance outcomes (place ++ [field.1]) = some next →
        next.same field.2 = true → next = field.2 := fun field member next =>
      ih field member (simple.field (Fields.find?_of_mem distinct member))
    clear same simple ih inside plain distinct
    suffices advanceFields outcomes fields place = fields by rw [this]
    induction fields with
    | nil => rw [advanceFields]
    | cons field rest ih =>
      obtain ⟨key, child⟩ := field
      obtain ⟨first, others⟩ := List.forall_mem_cons.mp each
      rw [advanceFields] at alike ⊢
      cases becomes : child.advance outcomes (place ++ [key]) with
      | none =>
        -- A field that is removed is missed.
        rw [becomes] at alike
        have fewer : (Fields.keys (advanceFields outcomes rest place)).length ≤
            (Fields.keys rest).length := keys_advanceFields_sublist.length_le
        have equal := length_eq_of_sameFields alike
        simp [Fields.keys] at fewer equal
        omega
      | some later =>
        rw [becomes] at alike
        simp only [Option.map_some, Option.toList_some, List.cons_append, List.nil_append,
          sameFields, Bool.and_eq_true] at alike ⊢
        rw [first later becomes alike.1.2, ih alike.2 others]
  | @expression node e written ofKind clear =>
    rw [Node.advance_of_expr? written] at stands
    cases outcome : outcomes e place with
    | ok r =>
      have whole := simple.here written (delivers_some.mpr outcome)
      have count := Node.exprCount_of_same same
      rw [outcome] at stands
      dsimp only at stands
      rcases resolvedNode_of_isSimple (unmarked e ofKind) clear whole with removed | ⟨kept, -⟩
      · rw [removed] at stands
        cases stands
      · rw [kept] at stands
        cases stands
        have none : (Node.mk r.value {} node.source).exprCount = 0 :=
          Node.exprCount_of_isSimple (Node.isSimple_plain.mpr whole.value)
        rw [Node.exprCount_of_expr? written, none] at count
        cases count
    | error u =>
      rw [outcome] at stands
      cases stands
      obtain ⟨value, annotations, source⟩ := node
      obtain ⟨alike, flags, -⟩ := Node.same_iff.mp same
      cases value with
      | expression e' =>
        cases written
        exact congrArg (Node.mk (.expression e) · source) flags
      | string text =>
        change (Value.expression e).same (.string text) = true at alike
        simp [Value.same] at alike
      | _ => cases written

theorem sameFields_self {fields : Fields Node}
    (each : ∀ field ∈ fields, field.2.same field.2 = true) : sameFields fields fields = true := by
  induction fields with
  | nil => rw [sameFields]
  | cons field rest ih =>
    obtain ⟨key, child⟩ := field
    obtain ⟨first, others⟩ := List.forall_mem_cons.mp each
    rw [sameFields, first, ih others]
    simp

/-- A tree looks like itself if its expressions do. -/
theorem Node.MadeOf.same_self (made : node.MadeOf kind) (alike : ∀ e, kind e → e.same e = true) :
    node.same node = true := by
  induction made with
  | simple simple =>
    exact Node.same_of_data (Node.isInert_of_isPlainData (Node.isPlainData_of_isSimple simple))
  | @map fields source distinct plain inside ih => simp [Node.same, Value.same, sameFields_self ih]
  | @expression node e written ofKind clear =>
    obtain ⟨value, annotations, source⟩ := node
    cases value with
    | expression e' =>
      cases written
      simp [Node.same, Value.same, alike e ofKind]
    | string text => simp [Node.same, Value.same]
    | _ => cases written

end

/-! ### The pass -/

section

variable {engine : Engine} {deeper : Deeper} {s : Setting} {root tree : Node} {passes : Nat}
  {Inv : Node → Prop}

/-- Each node of a tree receives its outcome over the snapshot, where its expressions are evaluated
without any other effect. -/
theorem flowNode_of_madeOf {kind : Expr → Prop} {defaultKey : String} {node : Node}
    {place : List String} {fuel : Nat} {overridable : Bool} (noStubs : s.stubs = [])
    (noState : s.state = none) (made : node.MadeOf kind)
    (unmarked : ∀ e, kind e → e.staticInfo = {})
    (effectless : ∀ path e, node.HasExpr defaultKey path e →
      outcomeOf engine deeper e (s.bindingAt root (place ++ path)) =
        pure (s.outcomes engine deeper root e (place ++ path)))
    (enough : node.height < fuel) :
    flowNode engine deeper fuel node (s.bindingAt root place) overridable =
      pure (node.advance (s.outcomes engine deeper root) place) := by
  induction made generalizing fuel overridable place with
  | simple simple =>
    rw [flowNode_of_isSimple noStubs simple enough, Node.advance_of_isSimple simple]
  | @map fields source distinct plain inside ih =>
    obtain ⟨fuel, rfl⟩ : ∃ n, fuel = n + 1 := ⟨fuel - 1, by omega⟩
    rw [Node.height, Value.height] at enough
    rw [flowNode_of_plainKeys noStubs noState
      (fun key child => child.advance (s.outcomes engine deeper root) (place ++ [key])) plain
      fun field member _ => ?_, Node.advance_map, advanceFields_eq_filterMap]
    have lower := height_le_fieldsHeight member
    refine ih field member (fun path e stands => ?_) (by omega)
    rw [List.append_assoc]
    exact effectless _ e (Node.hasExpr_cons.mpr
      ⟨field.2, Fields.find?_of_mem distinct member, stands⟩)
  | @expression node e written ofKind clear =>
    obtain ⟨fuel, rfl⟩ : ∃ n, fuel = n + 1 := ⟨fuel - 1, by omega⟩
    have outcome := effectless [] e ((Node.hasExpr_of_expr? written).mpr ⟨rfl, rfl⟩)
    rw [List.append_nil] at outcome
    exact flowNode_of_unmarked noStubs written (unmarked e ofKind) outcome

/-! ### Until nothing changes -/

/-- Without stubs, nothing is put into a document before its first pass. -/
theorem settle_of_noStubs (noStubs : s.stubs = []) :
    settle engine deeper s root = settleWithin engine deeper s engine.maxPasses root := by
  rw [settle, Setting.seeded, seedOverrides_of_noStubs (by exact noStubs), ite_self]

/-- Passes without effect but on the tree come to nothing, or to a tree that the last one of them
has made from one that looks the same. -/
theorem settleWithin_cases (passes : Nat)
    (step : ∀ root, Inv root → ∃ next, pass engine deeper s root = pure next ∧ Inv next)
    (start : Inv root) :
    ∃ result, settleWithin engine deeper s passes root = pure result ∧
      ∀ tree, result = some tree →
        ∃ before, Inv before ∧ pass engine deeper s before = pure tree := by
  induction passes generalizing root with
  | zero => exact ⟨none, rfl, nofun⟩
  | succ passes ih =>
    obtain ⟨next, passed, goesOn⟩ := step root start
    rw [settleWithin, passed, pure_bind]
    split
    · exact ⟨some next, rfl, fun tree same => ⟨root, start, Option.some.inj same ▸ passed⟩⟩
    · exact ih goesOn

/-- Passes end with a tree that stays as it is, if each pass before leaves fewer expressions. -/
theorem settleWithin_of_falling
    (step : ∀ root, Inv root → ∃ next, pass engine deeper s root = pure next ∧ Inv next ∧
      (next.exprCount < root.exprCount ∨ next = tree))
    (still : pass engine deeper s tree = pure tree) (same : tree.same tree = true)
    (start : Inv root) (enough : root.exprCount + 2 ≤ passes) :
    settleWithin engine deeper s passes root = pure (some tree) := by
  induction passes generalizing root with
  | zero => omega
  | succ passes ih =>
    obtain ⟨next, passed, goesOn, falls | rfl⟩ := step root start
    · rw [settleWithin, passed, pure_bind, if_neg fun same => ?_]
      · exact ih goesOn (by omega)
      · rw [Node.exprCount_of_same same] at falls
        exact Nat.lt_irrefl _ falls
    · obtain ⟨passes, rfl⟩ : ∃ n, passes = n + 1 := ⟨passes - 1, by omega⟩
      rw [settleWithin, passed, pure_bind]
      split
      · rfl
      · rw [settleWithin, still, pure_bind, if_pos same]

end

end Cascade
