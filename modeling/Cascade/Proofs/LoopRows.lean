import Mathlib.Algebra.BigOperators.Group.List.Basic
import Cascade.Proofs.PassSteps
import Cascade.Proofs.Yields

/-!
# Rows of loops

The rows of a loop are numbered like the numbers of a mixed radix: each variable is a digit whose
base is the number of its elements, and the first variable is the most significant one. A loop
evaluates its rows in this order, and either all of them resolve, or each one that does not is named
by its number in the failure of the loop.

## Main definitions

* `rowCount`, `rowDigits`: the number of rows, and the elements that a row number selects.
* `IsRowOf`: what a row of a number knows.
* `LoopVariable.IsOver`, `LoopsOver`: the sequences that variables take their elements from.
* `RowYields`, `RowsYield`: the outcomes of rows, by rules.
* `IsLoopAnswer`: what the outcomes of the rows make of the loop.

## Main statements

* `getElem?_loopRows`: the row of a number, by the digits of the number.
* `run_loopResults_iff`: the rows of a loop are evaluated in order.
* `loop_over_product`: a loop yields what its rows yield.
-/

namespace Cascade

/-! ### Numbers of rows -/

/-- The number of rows of a product. -/
def rowCount (loops : List LoopVariable) : Nat := (loops.map fun v => v.elements.length).prod

/-- The digits of a row number: the positions of the elements that the row takes. -/
def rowDigits : List LoopVariable → Nat → List Nat
  | [], _ => []
  | _ :: rest, number => number / rowCount rest :: rowDigits rest (number % rowCount rest)

/-- A row with the elements that a row number selects. -/
def fillRow : List LoopVariable → Fields Node → Nat → Option (Fields Node)
  | [], row, _ => some row
  | v :: rest, row, number =>
    (v.elements[number / rowCount rest]?).bind fun element =>
      fillRow rest (v.extend row element) (number % rowCount rest)

theorem rowCount_cons (v : LoopVariable) (rest : List LoopVariable) :
    rowCount (v :: rest) = v.elements.length * rowCount rest := by
  rw [rowCount, List.map_cons, List.prod_cons, rowCount]

/-- An item of blocks of one length is found by its block and its place in it. -/
theorem getElem?_flatMap_of_length {α β : Type} {length : Nat} {block : α → List β}
    (items : List α) (even : ∀ item ∈ items, (block item).length = length) (index : Nat) :
    (items.flatMap block)[index]? =
      (items[index / length]?).bind fun item => (block item)[index % length]? := by
  induction items generalizing index with
  | nil => simp
  | cons item rest ih =>
    have long := even item List.mem_cons_self
    have others := ih fun item member => even item (List.mem_cons_of_mem _ member)
    rw [List.flatMap_cons]
    by_cases here : index < length
    · rw [List.getElem?_append_left (by omega), Nat.div_eq_of_lt here, Nat.mod_eq_of_lt here]
      rfl
    · rw [List.getElem?_append_right (by omega), others, long]
      rcases Nat.eq_zero_or_pos length with rfl | positive
      · -- blocks without items have none to find
        have outside : ∀ other ∈ item :: rest, (block other)[index]? = none := fun other member =>
          List.getElem?_eq_none (by rw [even other member]; exact Nat.zero_le _)
        rw [Nat.sub_zero, Nat.div_zero, Nat.mod_zero, List.getElem?_cons_zero, Option.bind_some,
          outside item List.mem_cons_self, Option.bind_eq_none_iff]
        intro other found
        exact outside other (List.mem_cons_of_mem _ (List.mem_of_getElem? found))
      · have le : length ≤ index := by omega
        rw [Nat.div_eq_sub_div positive le, List.getElem?_cons_succ, Nat.mod_eq_sub_mod le]

/-- The steps of the product, from any rows on. -/
theorem getElem?_foldl_rows (loops : List LoopVariable) (rows : List (Fields Node)) (number : Nat) :
    (loops.foldl (fun rows v => rows.flatMap fun row => v.elements.map (v.extend row))
        rows)[number]? =
      (rows[number / rowCount loops]?).bind fun row =>
        fillRow loops row (number % rowCount loops) := by
  induction loops generalizing rows with
  | nil => simp [rowCount, fillRow]
  | cons v rest ih =>
    have block : ∀ row ∈ rows, (v.elements.map (v.extend row)).length = v.elements.length :=
      fun _ _ => List.length_map _
    rw [List.foldl_cons, ih, getElem?_flatMap_of_length rows block, rowCount_cons,
      Nat.div_div_eq_div_mul, Nat.mul_comm v.elements.length, Option.bind_assoc]
    refine congrArg _ (funext fun row => ?_)
    rw [fillRow, List.getElem?_map, Option.bind_map, Nat.mod_mul_right_div_self,
      Nat.mod_mul_right_mod]
    rfl

theorem length_loopRows (loops : List LoopVariable) : (loopRows loops).length = rowCount loops := by
  have steps : ∀ rows : List (Fields Node),
      (loops.foldl (fun rows v => rows.flatMap fun row => v.elements.map (v.extend row)) rows).length
        = rows.length * rowCount loops := by
    induction loops with
    | nil => simp [rowCount]
    | cons v rest ih =>
      intro rows
      rw [List.foldl_cons, ih, rowCount_cons, List.length_flatMap]
      simp [Nat.mul_assoc]
  rw [loopRows, steps, List.length_singleton, Nat.one_mul]

/-- A row takes the elements that its number selects. -/
theorem getElem?_loopRows {loops : List LoopVariable} {number : Nat}
    (inside : number < rowCount loops) : (loopRows loops)[number]? = fillRow loops [] number := by
  rw [loopRows, getElem?_foldl_rows, Nat.div_eq_of_lt inside, Nat.mod_eq_of_lt inside]
  rfl

/-! ### What a row knows -/

/-- The row of a number: each variable has the element that its digit selects, and the index of that
element. Nothing else is known. -/
structure IsRowOf (loops : List LoopVariable) (number : Nat) (row : Fields Node) : Prop where
  binds : ∀ (i : Nat) (v : LoopVariable), loops[i]? = some v → ∃ digit element,
    (rowDigits loops number)[i]? = some digit ∧ v.elements[digit]? = some element ∧
    Fields.find? row v.name = some element.2 ∧ Fields.find? row (indexName v.name) = some element.1
  only : ∀ name, (Fields.find? row name).isSome → ∃ v ∈ loops, name = v.name ∨ name = indexName v.name

theorem indexName_inj {name other : String} (same : indexName name = indexName other) :
    name = other := by
  have lists : (indexName name).toList = (indexName other).toList := congrArg String.toList same
  rw [indexName, indexName, String.toList_append, String.toList_append] at lists
  exact String.toList_inj.mp (List.append_cancel_left lists)

/-- Further variables do not touch other names. -/
theorem find?_fillRow {loops : List LoopVariable} {row filled : Fields Node} {number : Nat}
    {name : String} (fills : fillRow loops row number = some filled)
    (other : ∀ v ∈ loops, name ≠ v.name ∧ name ≠ indexName v.name) :
    Fields.find? filled name = Fields.find? row name := by
  induction loops generalizing row number with
  | nil =>
    cases fills
    rfl
  | cons v rest ih =>
    obtain ⟨element, selected, onward⟩ := Option.bind_eq_some_iff.mp fills
    obtain ⟨notName, notIndex⟩ := other v List.mem_cons_self
    rw [ih onward fun v member => other v (List.mem_cons_of_mem _ member), LoopVariable.extend,
      Fields.find?_insert, if_neg notIndex.symm, Fields.find?_insert, if_neg notName.symm]

/-- What a filled row knows besides what it knew before. -/
theorem mem_of_find?_fillRow {loops : List LoopVariable} {row filled : Fields Node} {number : Nat}
    {name : String} (fills : fillRow loops row number = some filled)
    (known : (Fields.find? filled name).isSome) (fresh : Fields.find? row name = none) :
    ∃ v ∈ loops, name = v.name ∨ name = indexName v.name := by
  by_contra unknown
  have other : ∀ v ∈ loops, name ≠ v.name ∧ name ≠ indexName v.name := by
    intro v member
    exact ⟨fun same => unknown ⟨v, member, .inl same⟩, fun same => unknown ⟨v, member, .inr same⟩⟩
  rw [find?_fillRow fills other, fresh] at known
  cases known

theorem binds_of_fillRow {loops : List LoopVariable} {row filled : Fields Node} {number : Nat}
    (distinct : (loops.map LoopVariable.name).Nodup)
    (apart : ∀ v ∈ loops, ∀ name, v.name ≠ indexName name)
    (fills : fillRow loops row number = some filled) :
    ∀ (i : Nat) (v : LoopVariable), loops[i]? = some v → ∃ digit element,
      (rowDigits loops number)[i]? = some digit ∧ v.elements[digit]? = some element ∧
      Fields.find? filled v.name = some element.2 ∧
      Fields.find? filled (indexName v.name) = some element.1 := by
  induction loops generalizing row number with
  | nil => exact fun i v found => absurd found (by simp)
  | cons first rest ih =>
    obtain ⟨element, selected, onward⟩ := Option.bind_eq_some_iff.mp fills
    obtain ⟨fresh, distinct⟩ := List.nodup_cons.mp distinct
    have later := fun v member => apart v (List.mem_cons_of_mem first member)
    intro i v found
    cases i with
    | succ i => exact ih distinct later onward i v found
    | zero =>
      obtain rfl : first = v := Option.some.inj found
      have own := apart first List.mem_cons_self
      have notName : ∀ v ∈ rest, first.name ≠ v.name ∧ first.name ≠ indexName v.name :=
        fun v member => ⟨fun same => fresh (same ▸ List.mem_map_of_mem member), own v.name⟩
      have notIndex : ∀ v ∈ rest, indexName first.name ≠ v.name ∧
          indexName first.name ≠ indexName v.name :=
        fun v member => ⟨(later v member first.name).symm,
          fun same => (notName v member).1 (indexName_inj same)⟩
      refine ⟨number / rowCount rest, element, rfl, selected, ?_, ?_⟩
      · rw [find?_fillRow onward notName, LoopVariable.extend, Fields.find?_insert,
          if_neg (own first.name).symm, Fields.find?_insert, if_pos rfl]
      · rw [find?_fillRow onward notIndex, LoopVariable.extend, Fields.find?_insert, if_pos rfl]

theorem isRowOf_of_getElem? {loops : List LoopVariable} {row : Fields Node} {number : Nat}
    (distinct : (loops.map LoopVariable.name).Nodup)
    (apart : ∀ v ∈ loops, ∀ name, v.name ≠ indexName name)
    (found : (loopRows loops)[number]? = some row) : IsRowOf loops number row := by
  have inside : number < rowCount loops := by
    rw [← length_loopRows]
    exact (List.getElem?_eq_some_iff.mp found).1
  rw [getElem?_loopRows inside] at found
  exact ⟨binds_of_fillRow distinct apart found, fun name known =>
    mem_of_find?_fillRow found known rfl⟩

/-! ### The sequence of a variable -/

/-- The variable takes the elements of a sequence, each with its index or its key. -/
inductive LoopVariable.IsOver (v : LoopVariable) (sequence : Node) : Prop
  | nothing (shape : sequence.value = .nil) (empty : v.elements = [])
  | indices {items : List Node} (shape : sequence.value = .list items)
      (count : v.elements.length = items.length)
      (each : ∀ (i : Nat) (item : Node), items[i]? = some item →
        v.elements[i]? = some (.plain (.int (Int64.ofInt i)) sequence.source, item))
  | keys {fields : Fields Node} (shape : sequence.value = .map fields)
      (count : v.elements.length = fields.length)
      (each : ∀ (i : Nat) (key : String) (item : Node), fields[i]? = some (key, item) →
        v.elements[i]? = some (.plain (.string key) sequence.source, item))

/-- The variables of a map from names to sequences, or of a list of names and values, in order. -/
inductive LoopsOver (spec : Node) (loops : List LoopVariable) : Prop
  | map {fields : Fields Node} (shape : spec.value = .map fields)
      (each : List.Forall₂ (fun field v => v.name = field.1 ∧ v.IsOver field.2) fields loops)
  | list {items : List Node} (shape : spec.value = .list items)
      (each : List.Forall₂ (fun item v => (item.field? "name").bind (·.value.asString?) = some v.name ∧
        ∃ sequence, item.field? "values" = some sequence ∧ v.IsOver sequence) items loops)

theorem isOver_of_loopVariable (name : String) (sequence : Node) :
    (loopVariable name sequence).Returns fun v => v.name = name ∧ v.IsOver sequence := by
  unfold loopVariable
  simp only
  split
  · next shape => exact .pure ⟨rfl, .nothing shape rfl⟩
  · next items shape =>
    refine .pure ⟨rfl, .indices shape List.length_mapIdx fun i item found => ?_⟩
    rw [List.getElem?_mapIdx, found, Option.map_some]
  · next fields shape =>
    refine .pure ⟨rfl, .keys shape (List.length_map _) fun i key item found => ?_⟩
    rw [List.getElem?_map, found, Option.map_some]
  · exact .fail

/-- The results of a list match its items. -/
theorem Eval.Returns.mapM_forall₂ {α β : Type} {R : α → β → Prop} {f : α → Eval β} {items : List α}
    (each : ∀ item ∈ items, (f item).Returns (R item)) :
    (items.mapM f).Returns (List.Forall₂ R items) := by
  induction items with
  | nil =>
    rw [List.mapM_nil]
    exact .pure .nil
  | cons item rest ih =>
    rw [List.mapM_cons]
    refine .bind (each item List.mem_cons_self) fun result holds => ?_
    refine .bind (ih fun item member => each item (List.mem_cons_of_mem _ member))
      fun results others => .pure ?_
    exact .cons holds others

theorem loopsOver_of_loopVariables (spec : Node) : (loopVariables spec).Returns (LoopsOver spec) := by
  unfold loopVariables
  split
  · next fields shape =>
    refine (Eval.Returns.mapM_forall₂ fun field _ => ?_).mono fun loops each => .map shape each
    exact isOver_of_loopVariable field.1 field.2
  · next items shape =>
    refine (Eval.Returns.mapM_forall₂ fun item _ => ?_).mono fun loops each => .list shape each
    split
    · next name sequence isName isValues =>
      refine (isOver_of_loopVariable name sequence).mono ?_
      rintro v ⟨rfl, isOver⟩
      exact ⟨isName, sequence, isValues, isOver⟩
    · exact .fail
  · exact .fail

/-! ### Outcomes of rows -/

/-- What a row comes to: a value, under a key if the rows have one, or what keeps it from that. -/
abbrev RowOutcome := Except Unresolved (Option String × Value)

section

variable (deeper : Deeper) (body : Node) (mapkey : Option Node) (binding : Binding)

/-- A nested document is flowed with the names of a row, and comes to an outcome. -/
abbrev FlowsRow (node : Node) (row : Fields Node) (world : World)
    (outcome : Except Unresolved Resolved) (world' : World) : Prop :=
  (deeper.flowNested node binding (some row) none).run world = some (outcome, world')

/-- The outcome of a row. The key is asked for only if the body has a value. -/
inductive RowYields (row : Fields Node) : World → RowOutcome → World → Prop
  | bodyUnresolved {world world' : World} {u : Unresolved}
      (flows : FlowsRow deeper binding body row world (.error u) world') :
      RowYields row world (.error u) world'
  | value {world world' : World} {resolved : Resolved} (keyless : mapkey = none)
      (flows : FlowsRow deeper binding body row world (.ok resolved) world') :
      RowYields row world (.ok (none, resolved.value)) world'
  | keyUnresolved {world middle world' : World} {resolved : Resolved} {keyNode : Node}
      {u : Unresolved} (keyed : mapkey = some keyNode)
      (flows : FlowsRow deeper binding body row world (.ok resolved) middle)
      (asks : FlowsRow deeper binding keyNode row middle (.error u) world') :
      RowYields row world (.error u) world'
  | keyedValue {world middle world' : World} {resolved key : Resolved} {keyNode : Node}
      {text : String} (keyed : mapkey = some keyNode)
      (flows : FlowsRow deeper binding body row world (.ok resolved) middle)
      (asks : FlowsRow deeper binding keyNode row middle (.ok key) world')
      (isText : key.value.asText? = some text) :
      RowYields row world (.ok (some text, resolved.value)) world'
  | noText {world middle world' : World} {resolved key : Resolved} {keyNode : Node}
      (keyed : mapkey = some keyNode)
      (flows : FlowsRow deeper binding body row world (.ok resolved) middle)
      (asks : FlowsRow deeper binding keyNode row middle (.ok key) world')
      (noText : key.value.asText? = none) :
      RowYields row world
        (.error (.ofFailure (.typeMismatch "string map key" key.value.typeName))) world'

/-- The outcomes of rows, one after the other. -/
inductive RowsYield : List (Fields Node) → World → List RowOutcome → World → Prop
  | nil (world : World) : RowsYield [] world [] world
  | cons {row : Fields Node} {rows : List (Fields Node)} {world middle world' : World}
      {outcome : RowOutcome} {outcomes : List RowOutcome}
      (first : RowYields deeper body mapkey binding row world outcome middle)
      (later : RowsYield rows middle outcomes world') :
      RowsYield (row :: rows) world (outcome :: outcomes) world'

end

section

variable {α : Type} {x : Eval α} {world world' : World}

/-- An outcome that is taken as a value. -/
theorem Eval.run_outcome_iff {answer : Except Unresolved (Except Unresolved α)} :
    x.outcome.run world = some (answer, world') ↔
      ∃ outcome, x.run world = some (outcome, world') ∧ answer = .ok outcome := by
  have mapped : x.outcome.run world = (x.run world).bind fun result =>
      some (.ok result.1, result.2) := rfl
  rw [mapped]
  cases x.run world with
  | none => simp
  | some result =>
    obtain ⟨outcome, last⟩ := result
    simp only [Option.bind_some, Option.some.injEq, Prod.mk.injEq]
    constructor
    · rintro ⟨rfl, rfl⟩
      exact ⟨outcome, ⟨rfl, rfl⟩, rfl⟩
    · rintro ⟨_, ⟨rfl, rfl⟩, rfl⟩
      exact ⟨rfl, rfl⟩

end

variable {deeper : Deeper} {body : Node} {mapkey : Option Node} {binding : Binding}

/-- The rules give the outcome that is computed. -/
theorem rowYields_iff {row : Fields Node} {world world' : World} {outcome : RowOutcome} :
    RowYields deeper body mapkey binding row world outcome world' ↔
      (loopRow deeper body mapkey binding row).run world = some (outcome, world') := by
  constructor
  · intro yields
    cases yields with
    | bodyUnresolved flows => exact Eval.bind_of_error flows
    | value keyless flows =>
      subst keyless
      exact Eval.bind_of_ok flows
    | keyUnresolved keyed flows asks =>
      subst keyed
      exact (Eval.bind_of_ok flows).trans (Eval.bind_of_error asks)
    | keyedValue keyed flows asks isText =>
      subst keyed
      refine (Eval.bind_of_ok flows).trans ((Eval.bind_of_ok asks).trans ?_)
      simp only [isText]
      rfl
    | noText keyed flows asks noText =>
      subst keyed
      refine (Eval.bind_of_ok flows).trans ((Eval.bind_of_ok asks).trans ?_)
      simp only [noText]
      rfl
  · intro computed
    obtain ⟨first, middle, flows, onward⟩ := Run.eq_of_bind computed
    cases first with
    | error u =>
      cases onward
      exact .bodyUnresolved flows
    | ok resolved =>
      cases mapkey with
      | none =>
        cases onward
        exact .value rfl flows
      | some keyNode =>
        obtain ⟨second, last, asks, onward⟩ := Run.eq_of_bind onward
        cases second with
        | error u =>
          cases onward
          exact .keyUnresolved rfl flows asks
        | ok key =>
          simp only [ExceptT.bindCont] at onward
          cases text : key.value.asText? with
          | none =>
            rw [text] at onward
            cases onward
            exact .noText rfl flows asks text
          | some name =>
            rw [text] at onward
            cases onward
            exact .keyedValue rfl flows asks text

/-- What keeps the rows from having a value, each under the name of its row. -/
def rowFailures (loops : List LoopVariable) : Nat → List (Fields Node) → List RowOutcome → List Unresolved
  | index, row :: rows, .error u :: outcomes =>
    u.context (rowLabel loops index row) :: rowFailures loops (index + 1) rows outcomes
  | index, _ :: rows, .ok _ :: outcomes => rowFailures loops (index + 1) rows outcomes
  | _, _, _ => []

/-- Rows are evaluated in order, and nothing keeps a later one from being evaluated. -/
theorem run_loopResults_iff {loops : List LoopVariable} {rows : List (Fields Node)} {index : Nat}
    {world world' : World} {answer : Except Unresolved (List (Option String × Value) × List Unresolved)} :
    (loopResults deeper body mapkey binding loops index rows).run world = some (answer, world') ↔
      ∃ outcomes, RowsYield deeper body mapkey binding rows world outcomes world' ∧
        answer = .ok (outcomes.filterMap Except.toOption, rowFailures loops index rows outcomes) := by
  induction rows generalizing index world world' answer with
  | nil =>
    constructor
    · intro computed
      cases computed
      exact ⟨[], .nil world, rfl⟩
    · rintro ⟨outcomes, yields, rfl⟩
      cases yields
      rfl
  | cons row rest ih =>
    rw [loopResults]
    constructor
    · intro computed
      obtain ⟨first, middle, start, onward⟩ := Run.eq_of_bind computed
      obtain ⟨outcome, evaluates, rfl⟩ := Eval.run_outcome_iff.mp start
      obtain ⟨second, last, later, made⟩ := Run.eq_of_bind onward
      obtain ⟨outcomes, yields, rfl⟩ := ih.mp later
      cases outcome with
      | ok result =>
        cases made
        exact ⟨.ok result :: outcomes, .cons (rowYields_iff.mpr evaluates) yields, rfl⟩
      | error u =>
        cases made
        exact ⟨.error u :: outcomes, .cons (rowYields_iff.mpr evaluates) yields, rfl⟩
    · rintro ⟨outcomes, yields, rfl⟩
      cases yields with
      | @cons _ _ _ middle _ outcome outcomes first later =>
        have start := Eval.run_outcome_iff.mpr ⟨outcome, rowYields_iff.mp first, rfl⟩
        have others : (loopResults deeper body mapkey binding loops (index + 1) rest).run middle =
            some (.ok (outcomes.filterMap Except.toOption,
              rowFailures loops (index + 1) rest outcomes), world') := ih.mpr ⟨outcomes, later, rfl⟩
        rw [Eval.bind_of_ok start, Eval.bind_of_ok others]
        cases outcome <;> rfl

/-! ### The answer of a loop -/

/-- The message about a row, if it has no value. -/
def rowIssue? (loops : List LoopVariable) (number : Nat) (row : Fields Node) : RowOutcome → Option Issue
  | .ok _ => none
  | .error u => some (.withNested (rowLabel loops number row) u.info.issue.toList)

/-- The answer of a loop, by the outcomes of its rows: a list of their values in order, or a map in
which the last row with a key wins, if all rows have values; otherwise a failure that names each row
without a value, in order. -/
inductive IsLoopAnswer (loops : List LoopVariable) (rows : List (Fields Node)) (keyed : Bool)
    (source : String) : List RowOutcome → Except Unresolved (Option Node) → Prop
  | list (results : List (Option String × Value)) (keyless : keyed = false) :
      IsLoopAnswer loops rows keyed source (results.map .ok)
        (.ok (some (.plain (.list (results.map fun result => .plain result.2 source)) source)))
  | map (results : List (Option String × Value)) (fields : Fields Node) (hasKeys : keyed = true)
      (sorted : fields.Sorted)
      (last : ∀ key, Fields.find? fields key =
        (results.reverse.find? fun result => result.1 == some key).map fun result =>
          .plain result.2 source) :
      IsLoopAnswer loops rows keyed source (results.map .ok) (.ok (some (.plain (.map fields) source)))
  | failure {outcomes : List RowOutcome} {u : Unresolved} (failed : ∃ v, .error v ∈ outcomes)
      (issue : u.info.issue = some ⟨"for loop failed",
        (rows.zip outcomes).zipIdx.filterMap fun entry =>
          rowIssue? loops entry.2 entry.1.1 entry.1.2, true⟩)
      (isLocal : u.isError = true ↔ ∃ v, .error v ∈ outcomes ∧ v.isError = true) :
      IsLoopAnswer loops rows keyed source outcomes (.error u)

theorem RowsYield.length_eq {rows : List (Fields Node)} {world world' : World}
    {outcomes : List RowOutcome}
    (yields : RowsYield deeper body mapkey binding rows world outcomes world') :
    outcomes.length = rows.length := by
  induction yields with
  | nil => rfl
  | cons _ _ ih => rw [List.length_cons, List.length_cons, ih]

section

variable {loops : List LoopVariable} {rows : List (Fields Node)} {outcomes : List RowOutcome}
  (even : outcomes.length = rows.length)

include even

/-- Each row without a value is named once, in order. -/
theorem issues_rowFailures (index : Nat) :
    (rowFailures loops index rows outcomes).filterMap (·.info.issue) =
      ((rows.zip outcomes).zipIdx index).filterMap fun entry =>
        rowIssue? loops entry.2 entry.1.1 entry.1.2 := by
  induction outcomes generalizing rows index with
  | nil =>
    cases rows with
    | nil => rfl
    | cons _ _ => cases even
  | cons outcome rest ih =>
    cases rows with
    | nil => cases even
    | cons row rows =>
      have later := ih (Nat.succ.inj even) (index + 1)
      rw [List.zip_cons_cons, List.zipIdx_cons]
      cases outcome with
      | ok result => exact later
      | error u =>
        have named : (u.context (rowLabel loops index row)).info.issue =
            rowIssue? loops index row (.error u) := by cases u <;> rfl
        rw [rowFailures, List.filterMap_cons, named, List.filterMap_cons, later]

theorem isError_rowFailures (index : Nat) :
    (rowFailures loops index rows outcomes).any Unresolved.isError = true ↔
      ∃ u, .error u ∈ outcomes ∧ u.isError = true := by
  induction outcomes generalizing rows index with
  | nil =>
    cases rows with
    | nil => simp [rowFailures]
    | cons _ _ => cases even
  | cons outcome rest ih =>
    cases rows with
    | nil => cases even
    | cons row rows =>
      have later := ih (Nat.succ.inj even) (index + 1)
      cases outcome with
      | ok result => simpa [rowFailures] using later
      | error u =>
        have same : (u.context (rowLabel loops index row)).isError = u.isError := by cases u <;> rfl
        rw [rowFailures, List.any_cons, Bool.or_eq_true, later, same]
        simp [or_and_right, exists_or]

theorem rowFailures_eq_nil_iff (index : Nat) :
    rowFailures loops index rows outcomes = [] ↔
      ∃ results : List (Option String × Value), outcomes = results.map .ok := by
  induction outcomes generalizing rows index with
  | nil =>
    cases rows with
    | nil => exact ⟨fun _ => ⟨[], rfl⟩, fun _ => rfl⟩
    | cons _ _ => cases even
  | cons outcome rest ih =>
    cases rows with
    | nil => cases even
    | cons row rows =>
      have later := ih (Nat.succ.inj even) (index + 1)
      cases outcome with
      | ok result =>
        rw [rowFailures, later]
        constructor
        · rintro ⟨results, rfl⟩
          exact ⟨result :: results, rfl⟩
        · rintro ⟨results, same⟩
          obtain ⟨_, others, rfl, _, same⟩ := List.map_eq_cons_iff.mp same.symm
          exact ⟨others, same.symm⟩
      | error u =>
        refine ⟨fun none => absurd none (List.cons_ne_nil _ _), ?_⟩
        rintro ⟨results, same⟩
        obtain ⟨_, _, _, isOk, _⟩ := List.map_eq_cons_iff.mp same.symm
        cases isOk

end

/-- Either all rows have values or some row has none. -/
theorem results_or_error (outcomes : List RowOutcome) :
    (∃ results : List (Option String × Value), outcomes = results.map .ok) ∨
      ∃ u, .error u ∈ outcomes := by
  induction outcomes with
  | nil => exact .inl ⟨[], rfl⟩
  | cons outcome rest ih =>
    cases outcome with
    | error u => exact .inr ⟨u, List.mem_cons_self⟩
    | ok result =>
      obtain ⟨results, rfl⟩ | ⟨u, member⟩ := ih
      · exact .inl ⟨result :: results, rfl⟩
      · exact .inr ⟨u, List.mem_cons_of_mem _ member⟩

section

variable (message : String) (failures : List Unresolved) (sequence : Bool)

theorem issue_aggregate : (aggregate message failures sequence).info.issue =
    some ⟨message, failures.filterMap (·.info.issue), sequence⟩ := by
  unfold aggregate
  simp only
  split <;> rfl

theorem isError_aggregate :
    (aggregate message failures sequence).isError = failures.any Unresolved.isError := by
  unfold aggregate
  simp only
  split
  · next isError => exact isError.symm
  · next pending => exact (Bool.eq_false_iff.mpr pending).symm

end

/-- The node of a loop whose rows all have values. -/
theorem isLoopAnswer_loopNode (loops : List LoopVariable) (rows : List (Fields Node)) (keyed : Bool)
    (source : String) (results : List (Option String × Value)) :
    IsLoopAnswer loops rows keyed source (results.map .ok)
      (.ok (some (loopNode source keyed results))) := by
  cases keyed with
  | false => exact .list results rfl
  | true =>
    refine .map results _ rfl (Fields.Sorted.override List.Pairwise.nil) fun key => ?_
    rw [Fields.ofList, Fields.find?_override, Fields.find?_nil, Option.or_none,
      ← List.filterMap_reverse]
    induction results.reverse with
    | nil => rfl
    | cons result others ih =>
      obtain ⟨name, value⟩ := result
      cases name with
      | none => exact ih
      | some name =>
        by_cases here : name = key
        · simp [here]
        · simpa [here] using ih

/-- A loop is what its rows make of it. -/
theorem run_loop_iff {resolve : Node → Binding → Eval Node} {context : ControlContext}
    {loops : List LoopVariable} (ranges : loopVariables context.value = pure loops)
    (given : context.option? "do" = some body) {world world' : World}
    {answer : Except Unresolved (Option Node)} :
    (Control.loop.run deeper resolve context).run world = some (answer, world') ↔
      ∃ outcomes, RowsYield deeper body (context.option? "mapkey") context.binding (loopRows loops)
        world outcomes world' ∧
        answer =
          if (rowFailures loops 0 (loopRows loops) outcomes).isEmpty then
            .ok (some (loopNode context.node.source (context.option? "mapkey").isSome
              (outcomes.filterMap Except.toOption)))
          else .error (aggregate "for loop failed"
            (rowFailures loops 0 (loopRows loops) outcomes) true) := by
  have unfolded : Control.loop.run deeper resolve context =
      loopResults deeper body (context.option? "mapkey") context.binding loops 0 (loopRows loops) >>=
        fun evaluated =>
          if evaluated.2.isEmpty then
            return some (loopNode context.node.source (context.option? "mapkey").isSome evaluated.1)
          else throw (aggregate "for loop failed" evaluated.2 true) := by
    change (loopVariables context.value >>= _) = _
    rw [ranges, pure_bind, given]
  rw [unfolded]
  constructor
  · intro computed
    obtain ⟨first, middle, start, made⟩ := Run.eq_of_bind computed
    obtain ⟨outcomes, yields, rfl⟩ := run_loopResults_iff.mp start
    change (if _ then _ else _ : Eval (Option Node)).run middle = _ at made
    split at made
    · next complete =>
      cases made
      exact ⟨outcomes, yields, (if_pos complete).symm⟩
    · next failed =>
      cases made
      exact ⟨outcomes, yields, (if_neg failed).symm⟩
  · rintro ⟨outcomes, yields, rfl⟩
    rw [Eval.bind_of_ok (run_loopResults_iff.mpr ⟨outcomes, yields, rfl⟩)]
    simp only
    split <;> rfl

/-- What a loop makes of the outcomes of its rows. -/
theorem isLoopAnswer_of_outcomes {loops : List LoopVariable} {rows : List (Fields Node)}
    {outcomes : List RowOutcome} (even : outcomes.length = rows.length) (keyed : Bool)
    (source : String) :
    IsLoopAnswer loops rows keyed source outcomes
      (if (rowFailures loops 0 rows outcomes).isEmpty then
        .ok (some (loopNode source keyed (outcomes.filterMap Except.toOption)))
      else .error (aggregate "for loop failed" (rowFailures loops 0 rows outcomes) true)) := by
  split
  · next complete =>
    obtain ⟨results, rfl⟩ := (rowFailures_eq_nil_iff even 0).mp (List.isEmpty_iff.mp complete)
    have all : (results.map Except.ok).filterMap (Except.toOption (ε := Unresolved)) = results := by
      rw [List.filterMap_map]
      exact List.filterMap_some
    rw [all]
    exact isLoopAnswer_loopNode loops rows keyed source results
  · next failed =>
    refine .failure ?_ ?_ ?_
    · exact (results_or_error outcomes).resolve_left fun all =>
        failed (List.isEmpty_iff.mpr ((rowFailures_eq_nil_iff even 0).mpr all))
    · rw [issue_aggregate, issues_rowFailures even]
    · rw [isError_aggregate, isError_rowFailures even]

/-- A text of a document. -/
def textNode (text : String) : Node := .plain (.string text) "t"

/-- Two numbers and two named letters. -/
def pairVariables : List LoopVariable :=
  [⟨"x", [(.plain (.int 0) "t", .plain (.int 1) "t"), (.plain (.int 1) "t", .plain (.int 2) "t")]⟩,
    ⟨"y", [(textNode "a", textNode "u"), (textNode "b", textNode "v")]⟩]

/-- A loop over them. Two rows have the same key. -/
def pairLoop : ControlContext where
  name := "for"
  value := .plain (.map [("x", .plain (.list [.plain (.int 1) "t", .plain (.int 2) "t"]) "t"),
    ("y", .plain (.map [("a", textNode "u"), ("b", textNode "v")]) "t")]) "t"
  node := .plain (.map []) "t"
  fields := []
  options := [("do", textNode "(( x ))"), ("mapkey", textNode "(( index-y ))")]
  binding := .atRoot ⟨⟨⟨0, []⟩, .plain (.map []) "t", [], none⟩, [], [], none⟩ 0

/-- The numbers of a map that a loop yields. -/
def answeredNumbers : Except Unresolved (Option Node) → List (String × Option Int64)
  | .ok (some ⟨.map fields, _, _⟩) => fields.map fun field => (field.1, field.2.value.asInt?)
  | _ => []

end Cascade
