import Cascade.Proofs.TameEvaluation

/-!
# Controls on tame maps

A control is run on the complete value of its key and hands back a node that is flowed in the same
pass. That this comes to an end rests on a measure: the number of expressions first, how deep controls
are nested second, how deep containers are nested last. Branches and cases are nested in the map that
carries the control, so they have fewer controls around them. Rows of loops are still. A merge leaves
no control key in the map; either its input held an expression, which is gone now, or the input is
still.

## Main definitions

* `Node.Smaller`: the order in which a pass goes down.
* `ControlContext.Tame`, `Control.Halts`: what controls are given, and what they do with it.

## Main statements

* `Control.standard_halt`: the standard controls come to an end, with smaller nodes.
* `runControl_halts`: so does the control of a map.
-/

namespace Cascade

open Eval

/-! ### The order of a pass -/

/-- A node that a pass goes on with: it holds fewer expressions, or no more of them and fewer controls,
or no more of either and fewer containers. -/
def Node.Smaller (m n : Node) : Prop :=
  m.pending < n.pending ∨
    m.pending ≤ n.pending ∧ (m.rank < n.rank ∨ m.rank ≤ n.rank ∧ m.height < n.height)

/-- The order is part of the lexicographic one. -/
theorem Node.smaller_wellFounded : WellFounded Node.Smaller := by
  let ranks := Prod.lex Nat.lt_wfRel (Prod.lex Nat.lt_wfRel Nat.lt_wfRel)
  refine Subrelation.wf (fun {m n} smaller => ?_)
    (InvImage.wf (fun n : Node => (n.pending, n.rank, n.height)) ranks.wf)
  change Prod.Lex (· < ·) (Prod.Lex (· < ·) (· < ·)) (m.pending, m.rank, m.height)
    (n.pending, n.rank, n.height)
  simp only [Prod.lex_def]
  rcases smaller with fewer | ⟨same, fewer | ⟨alike, lower⟩⟩ <;> omega

theorem Node.Smaller.pending_le {m n : Node} (smaller : m.Smaller n) : m.pending ≤ n.pending := by
  rcases smaller with fewer | ⟨same, -⟩ <;> omega

theorem Node.Smaller.of_rank {m n : Node} (pending : m.pending ≤ n.pending) (rank : m.rank < n.rank) :
    m.Smaller n := .inr ⟨pending, .inl rank⟩

section

variable {fields : Fields Node} {annotations : Annotations} {source : String}

theorem Node.smaller_of_mem_list {items : List Node} {item : Node} (member : item ∈ items) :
    item.Smaller ⟨.list items, annotations, source⟩ := by
  refine .inr ⟨pending_le_itemsPending member, .inr ⟨rank_le_itemsRank member, ?_⟩⟩
  exact Nat.lt_succ_of_le (height_le_itemsHeight member)

theorem Node.smaller_of_mem_map {field : String × Node} (member : field ∈ fields) :
    field.2.Smaller ⟨.map fields, annotations, source⟩ := by
  refine .inr ⟨pending_le_fieldsPending member, .inr ⟨?_, ?_⟩⟩
  · exact Nat.le_add_left_of_le (rank_le_fieldsRank member)
  · exact Nat.lt_succ_of_le (height_le_fieldsHeight member)

end

/-! ### Control keys -/

/-- The key names neither a control nor an option. -/
def IsPlainKey (key : String) : Prop := (controlSuffix? key).filter (· ≠ "") = none

instance (key : String) : Decidable (IsPlainKey key) := inferInstanceAs (Decidable (_ = none))

theorem controlCount_eq_zero_iff {fields : Fields Node} :
    controlCount fields = 0 ↔ ∀ field ∈ fields, IsPlainKey field.1 := by
  rw [controlCount, List.length_eq_zero_iff, controlNames, List.filterMap_eq_nil_iff, Fields.keys,
    List.forall_mem_map]
  rfl

theorem controlSuffix?_controlKey (name : String) : controlSuffix? (controlKey name) = some name := by
  rw [controlSuffix?, controlKey, String.toList_append]
  change some (String.ofList name.toList) = _
  rw [String.ofList_toList]

/-- A key with a suffix is the control key of the suffix. -/
theorem eq_controlKey {key name : String} (suffix : controlSuffix? key = some name) :
    key = controlKey name := by
  unfold controlSuffix? at suffix
  split at suffix
  · next rest shape =>
    cases suffix
    rw [controlKey, ← String.toList_inj, String.toList_append, shape, String.toList_ofList]
    rfl
  · cases suffix

theorem controlNames_of_mem {fields : Fields Node} {name : String} {child : Node} (named : name ≠ "")
    (member : (controlKey name, child) ∈ fields) : name ∈ controlNames fields := by
  rw [controlNames, List.mem_filterMap]
  exact ⟨controlKey name, List.mem_map_of_mem member, by simp [controlSuffix?_controlKey, named]⟩

/-- The name of a control comes from a field. -/
theorem find?_of_controlNames {fields : Fields Node} {name : String}
    (carried : name ∈ controlNames fields) :
    name ≠ "" ∧ ∃ written, Fields.find? fields (controlKey name) = some written := by
  obtain ⟨key, member, suffix⟩ := List.mem_filterMap.mp carried
  obtain ⟨suffix, named⟩ := Option.filter_eq_some_iff.mp suffix
  obtain ⟨field, known, rfl⟩ := List.mem_map.mp member
  refine ⟨by simpa using named, Option.ne_none_iff_exists'.mp fun absent => ?_⟩
  exact Fields.find?_eq_none_iff.mp absent field known (eq_controlKey suffix)

theorem one_lt_controlCount {fields : Fields Node} {name other : String}
    (first : name ∈ controlNames fields) (second : other ∈ controlNames fields)
    (differ : name ≠ other) : 1 < controlCount fields := by
  rw [controlCount]
  rcases known : controlNames fields with - | ⟨a, - | ⟨b, rest⟩⟩
  · simp [known] at first
  · rw [known, List.mem_singleton] at first second
    exact absurd (first.trans second.symm) differ
  · simp

/-! ### What a control is given -/

/-- A tame node that is an option of the control of a map, or in one. -/
def Node.IsOptionOf (m n : Node) : Prop :=
  m.Tame true ∧ m.pending ≤ n.pending ∧ m.rank + 2 ≤ n.rank

theorem Node.IsOptionOf.smaller {m n : Node} (option : m.IsOptionOf n) : m.Smaller n :=
  .of_rank option.2.1 (by have := option.2.2; omega)

theorem inherited_isOptionOf (n : Node) : Inherited fun m => m.IsOptionOf n where
  item := fun ⟨tame, pending, rank⟩ item member =>
    ⟨inherited_of_tame.item tame item member,
      Nat.le_trans (pending_le_itemsPending member) pending, by
        have inside := rank_le_itemsRank member
        have whole : itemsRank _ + 2 ≤ n.rank := rank
        omega⟩
  field := fun ⟨tame, pending, rank⟩ field member =>
    ⟨inherited_of_tame.field tame field member,
      Nat.le_trans (pending_le_fieldsPending member) pending, by
        have inside := rank_le_fieldsRank member
        have whole : min 2 (controlCount _) + fieldsRank _ + 2 ≤ n.rank := rank
        omega⟩

/-- A control of a node is given a computed value, fields without control keys, and options of the
node. Unless the value is still there are more expressions in the node than in the fields. -/
structure ControlContext.Tame (context : ControlContext) (node : Node) : Prop where
  value : context.value.Tame false
  input : context.value.rank = 0 ∨ fieldsPending context.fields < node.pending
  carried : 0 < node.rank
  fields : ∀ field ∈ context.fields,
    FieldTame true field ∧ IsPlainKey field.1 ∧ field.2.rank < node.rank
  pending : fieldsPending context.fields ≤ node.pending
  option : ∀ {name option}, context.option? name = some option → option.IsOptionOf node
  place : context.binding.Tame

/-- A node below comes to an end with a computed value. If it holds no expression, then no control
is left in its value. -/
def ResolvesBelow (resolve : Nat → Node → Binding → Eval Node) (node : Node) : Prop :=
  ∀ m binding, m.Smaller node → m.Tame true → binding.Tame →
    Eval.Halts (fun steps => resolve steps m binding) fun value =>
      value.Tame false ∧ (m.pending = 0 → value.rank = 0)

/-- What is flowed in place of a node. -/
def FollowsOn (node : Node) (result : Option Node) : Prop :=
  ∀ m ∈ result, m.Tame true ∧ m.Smaller node

/-- The control comes to an end, with a smaller node if any. -/
def Control.Halts (control : Control) : Prop :=
  ∀ deeper resolve node context, DeeperHalts deeper → ResolvesBelow resolve node →
    context.Tame node →
    Eval.Halts (fun steps => control.run (deeper steps) (resolve steps) context) (FollowsOn node)

/-! ### Choices -/

variable {deeper : Nat → Deeper} {resolve : Nat → Node → Binding → Eval Node} {node : Node}
  {context : ControlContext}

/-- Some node, if any, is an option of the node or in one. -/
def IsOptional (node : Node) (result : Option Node) : Prop := ∀ m ∈ result, m.IsOptionOf node

theorem IsOptional.followsOn {result : Option Node} (options : IsOptional node result) :
    FollowsOn node result := fun m found => ⟨(options m found).1, (options m found).smaller⟩

theorem conditional_halts : Control.conditional.Halts := by
  intro deeper resolve node context _ _ given
  exact .pure (IsOptional.followsOn fun m found => given.option found)

theorem choose_halts {selected : Option Node} {what : String} (given : context.Tame node)
    (known : IsOptional node selected) :
    Eval.Halts (fun _ => choose context selected what) (FollowsOn node) := by
  unfold choose
  split
  · next result found =>
    refine .pure (IsOptional.followsOn ?_)
    rintro _ ⟨⟩
    rcases Option.or_eq_some_iff.mp found with picked | ⟨-, default⟩
    · exact known result picked
    · exact given.option default
  · exact .fail

theorem caseMatches_halts {case : Node} (below : DeeperHalts deeper) (given : context.Tame node)
    (test : case.Tame false) :
    Eval.Halts (fun steps => caseMatches (deeper steps) context case) fun _ => True := by
  have inside := test.value
  unfold caseMatches
  split
  · next predicate shape =>
    rw [shape, Value.tame_lambda] at inside
    refine (below.invoke predicate _ _ inside ?_ given.place).bind fun _ _ => .pure trivial
    simpa [ArgumentValue.Has] using given.value.asWritten
  · exact .pure trivial

theorem selectCase_halts {place : Binding} {index : Nat} {entries : List Node}
    (below : DeeperHalts deeper) (resolves : ResolvesBelow resolve node) (given : context.Tame node)
    (here : place.Tame) (inside : ∀ entry ∈ entries, entry.IsOptionOf node) :
    Eval.Halts
      (fun steps => selectCase (deeper steps) (resolve steps) context place index entries)
      (IsOptional node) := by
  induction entries generalizing index with
  | nil =>
    simp only [selectCase]
    exact .pure (by simp [IsOptional])
  | cons entry rest ih =>
    have first := inside entry List.mem_cons_self
    have options := inherited_isOptionOf node
    simp only [selectCase]
    split
    · next case value caseFound valueFound =>
      have test := options.field? first caseFound
      refine (resolves case _ test.smaller test.1 ((here.child _).child _)).bind
        fun case computed => ?_
      refine (caseMatches_halts below given computed.1).bind fun accepted _ => ?_
      split
      · refine .pure ?_
        rintro _ ⟨⟩
        exact options.field? first valueFound
      · exact ih fun entry member => inside entry (List.mem_cons_of_mem _ member)
    · exact .fail

/-- The value of an option is that of a node below. -/
theorem ControlContext.Tame.optionValue {name : String} {value : Value} (given : context.Tame node)
    (found : (context.option? name).map Node.value = some value) :
    ∃ option : Node, option.IsOptionOf node ∧ option.value = value := by
  obtain ⟨option, known, shape⟩ := Option.map_eq_some_iff.mp found
  exact ⟨option, given.option known, shape⟩

theorem isOptional_find? {fields : Fields Node} {key : String} {option : Node}
    (inside : option.IsOptionOf node) (shape : option.value = .map fields) :
    IsOptional node (Fields.find? fields key) := by
  obtain ⟨value, annotations, source⟩ := option
  cases shape
  exact fun m found => (inherited_isOptionOf node).field inside _ (Fields.mem_of_find? found)

theorem switchCase_halts (below : DeeperHalts deeper) (resolves : ResolvesBelow resolve node)
    (given : context.Tame node) :
    Eval.Halts (fun steps => switchCase (deeper steps) (resolve steps) context)
      (IsOptional node) := by
  unfold switchCase
  split
  · exact .pure (by simp [IsOptional])
  · next fields found =>
    obtain ⟨cases, inside, shape⟩ := given.optionValue found
    split
    · exact .pure (isOptional_find? inside shape)
    · exact .mismatch
  · next entries found =>
    obtain ⟨⟨value, annotations, source⟩, inside, shape⟩ := given.optionValue found
    cases shape
    exact selectCase_halts below resolves given (given.place.child _)
      ((inherited_isOptionOf node).item inside)
  · exact .mismatch

theorem switch_halts : Control.switch.Halts := by
  intro deeper resolve node context below resolves given
  exact (switchCase_halts below resolves given).bind fun selected known => choose_halts given known

theorem typeCase_halts (given : context.Tame node) :
    Eval.Halts (fun _ => typeCase context) (IsOptional node) := by
  unfold typeCase
  split
  · exact .pure (by simp [IsOptional])
  · next fields found =>
    obtain ⟨cases, inside, shape⟩ := given.optionValue found
    split
    · exact .fail
    · exact .pure (isOptional_find? inside shape)
  · exact .mismatch

theorem type_halts : Control.type.Halts := by
  intro deeper resolve node context _ _ given
  exact (typeCase_halts given).bind fun selected known => choose_halts given known

/-! ### Merges -/

theorem rank_map_eq_zero_iff {fields : Fields Node} {annotations : Annotations} {source : String} :
    (Node.mk (.map fields) annotations source).rank = 0 ↔
      ∀ field ∈ fields, IsPlainKey field.1 ∧ field.2.rank = 0 := by
  change min 2 (controlCount fields) + fieldsRank fields = 0 ↔ _
  have below : fieldsRank fields = 0 ↔ ∀ field ∈ fields, field.2.rank = 0 := by
    simp only [← Nat.le_zero, fieldsRank_le_iff]
  rw [Nat.add_eq_zero_iff, below, forall₂_and, ← controlCount_eq_zero_iff]
  exact and_congr_left' (by omega)

theorem rank_list_eq_zero_iff {items : List Node} {annotations : Annotations} {source : String} :
    (Node.mk (.list items) annotations source).rank = 0 ↔ ∀ item ∈ items, item.rank = 0 := by
  change itemsRank items = 0 ↔ _
  rw [← Nat.le_zero, itemsRank_le_iff]
  simp only [Nat.le_zero]

theorem fieldsPending_insert_le {key : String} {child : Node} {fields : Fields Node} :
    fieldsPending (Fields.insert key child fields) ≤ fieldsPending fields + child.pending := by
  induction fields with
  | nil => simp [Fields.insert, fieldsPending]
  | cons field rest ih =>
    obtain ⟨name, old⟩ := field
    rw [Fields.insert]
    split
    · simp only [fieldsPending]
      omega
    · split
      · simp only [fieldsPending]
        omega
      · simp only [fieldsPending]
        omega

theorem fieldsPending_override_le {fields later : Fields Node} :
    fieldsPending (Fields.override fields later) ≤ fieldsPending fields + fieldsPending later := by
  induction later generalizing fields with
  | nil => exact Nat.le_refl _
  | cons field rest ih =>
    obtain ⟨key, child⟩ := field
    have after : fieldsPending (Fields.override (Fields.insert key child fields) rest) ≤
        fieldsPending (Fields.insert key child fields) + fieldsPending rest := ih
    have first : fieldsPending (Fields.insert key child fields) ≤
        fieldsPending fields + child.pending := fieldsPending_insert_le
    change fieldsPending (Fields.override (Fields.insert key child fields) rest) ≤ _
    rw [fieldsPending]
    omega

theorem fieldsPending_of_computed {fields : Fields Node}
    (computed : ∀ field ∈ fields, FieldTame false field) : fieldsPending fields = 0 :=
  fieldsPending_eq_zero_iff.mpr fun field member =>
    Node.pending_of_tame_false (computed field member).tame

/-- Computed fields; without control keys if they come from a value without controls. -/
def SplicedFrom (value : Node) (fields : Fields Node) : Prop :=
  ∀ field ∈ fields,
    FieldTame false field ∧ (value.rank = 0 → IsPlainKey field.1 ∧ field.2.rank = 0)

theorem mergeSources_halts {value : Node} (tame : value.Tame false) :
    Eval.Halts (fun _ => mergeSources value) fun sources =>
      ∀ source ∈ sources, source.Tame false ∧ (value.rank = 0 → source.rank = 0) := by
  obtain ⟨value, annotations, source⟩ := value
  unfold mergeSources
  split
  · exact .pure (by simp)
  · refine .pure fun source member => ?_
    obtain rfl := List.mem_singleton.mp member
    exact ⟨tame, id⟩
  · next items shape =>
    obtain rfl : value = .list items := shape
    exact .pure fun source member =>
      ⟨Value.tame_list.mp tame.value source member,
        fun still => rank_list_eq_zero_iff.mp still source member⟩
  · exact .mismatch

theorem spliceFields_halts {value source : Node}
    (known : source.Tame false ∧ (value.rank = 0 → source.rank = 0)) :
    Eval.Halts (fun _ => spliceFields source) (SplicedFrom value) := by
  obtain ⟨tame, still⟩ := known
  obtain ⟨inner, annotations, name⟩ := source
  unfold spliceFields
  split
  · exact .pure (by simp [SplicedFrom])
  · next fields shape =>
    obtain rfl : inner = .map fields := shape
    exact .pure fun field member => ⟨Value.Tame.fields tame.value field member, fun plain =>
      rank_map_eq_zero_iff.mp (still plain) field member⟩
  · exact .mismatch

/-- Of the fields of a merged map, those that are spliced in are computed. -/
theorem merge_halts : Control.merge.Halts := by
  intro deeper resolve node context _ _ given
  refine (mergeSources_halts given.value).bind fun sources known => ?_
  refine (Eval.Halts.mapM (f := fun _ => spliceFields) fun source member =>
    spliceFields_halts (known source member)).bind fun spliced inside => ?_
  have merged : Fields.Sorted (spliced.foldl Fields.override []) ∧
      SplicedFrom context.value (spliced.foldl Fields.override []) := by
    refine List.foldlRecOn spliced Fields.override
      (motive := fun all => Fields.Sorted all ∧ SplicedFrom context.value all)
      ⟨List.Pairwise.nil, by simp [SplicedFrom]⟩ fun all known fields member => ?_
    exact ⟨known.1.override, fun field found =>
      (Fields.mem_override found).elim (known.2 field) (inside fields member field)⟩
  generalize spliced.foldl Fields.override [] = fields at merged
  obtain ⟨sorted, computed⟩ := merged
  have count : fieldsPending (Fields.override fields context.fields) ≤
      fieldsPending context.fields := by
    have sum : fieldsPending (Fields.override fields context.fields) ≤
        fieldsPending fields + fieldsPending context.fields := fieldsPending_override_le
    rw [fieldsPending_of_computed fun field member => (computed field member).1] at sum
    omega
  refine .pure ?_
  rintro _ ⟨⟩
  refine ⟨Node.tame_iff.mpr (Value.tame_map.mpr ⟨sorted.override, fun field member => ?_⟩), ?_⟩
  · exact (Fields.mem_override member).elim (fun spliced => (computed field spliced).1.asWritten)
      fun own => (given.fields field own).1
  · -- A still value brings no controls along. Otherwise the map had an expression more.
    rcases given.input with still | fewer
    · refine .of_rank (Nat.le_trans count given.pending) ?_
      have plain : controlCount (Fields.override fields context.fields) = 0 :=
        controlCount_eq_zero_iff.mpr fun field member =>
          (Fields.mem_override member).elim (fun spliced => ((computed field spliced).2 still).1)
            fun own => (given.fields field own).2.1
      have below : fieldsRank (Fields.override fields context.fields) ≤ node.rank - 1 := by
        refine fieldsRank_le_iff.mpr fun field member => ?_
        rcases Fields.mem_override member with spliced | own
        · rw [((computed field spliced).2 still).2]
          exact Nat.zero_le _
        · exact Nat.le_sub_one_of_lt (given.fields field own).2.2
      have carried := given.carried
      change min 2 (controlCount _) + fieldsRank _ < node.rank
      omega
    · exact .inl (Nat.lt_of_le_of_lt count fewer)

/-! ### Loops -/

/-- The elements of a variable are computed, and so are their indices. -/
def LoopVariable.Tame (v : LoopVariable) : Prop :=
  ∀ e ∈ v.elements, e.1.Tame false ∧ e.2.Tame false

theorem loopVariable_halts {name : String} {sequence : Node} (tame : sequence.Tame false) :
    Eval.Halts (fun _ => loopVariable name sequence) LoopVariable.Tame := by
  have inside := tame.value
  unfold loopVariable
  dsimp only
  split
  · exact .pure (by simp [LoopVariable.Tame])
  · next items shape =>
    rw [shape, Value.tame_list] at inside
    refine .pure fun e member => ?_
    obtain ⟨index, inRange, rfl⟩ := List.mem_mapIdx.mp member
    exact ⟨Node.tame_plain.mpr (Value.tame_int _), inside _ (List.getElem_mem _)⟩
  · next fields shape =>
    rw [shape, Value.tame_map] at inside
    refine .pure fun e member => ?_
    obtain ⟨field, known, rfl⟩ := List.mem_map.mp member
    have field := inside.2 field known
    exact ⟨Node.tame_plain.mpr (Value.tame_string_of_isBare field.bare), field.tame⟩
  · exact .mismatch

theorem loopVariables_halts {spec : Node} (tame : spec.Tame false) :
    Eval.Halts (fun _ => loopVariables spec) fun loops => ∀ v ∈ loops, v.Tame := by
  have inside := tame.value
  unfold loopVariables
  split
  · next fields shape =>
    rw [shape, Value.tame_map] at inside
    exact Eval.Halts.mapM fun field member => loopVariable_halts (inside.2 field member).tame
  · next items shape =>
    rw [shape, Value.tame_list] at inside
    refine Eval.Halts.mapM fun item member => ?_
    split
    · next name sequence _ found =>
      exact loopVariable_halts (inherited_of_tame.field? (inside item member) found)
    · exact .fail
  · exact .mismatch

/-- Rows of tame variables name computed nodes. -/
theorem tame_loopRows {loops : List LoopVariable} (tame : ∀ v ∈ loops, v.Tame) :
    ∀ row ∈ loopRows loops, ∀ field ∈ row, field.2.Tame false := by
  refine List.foldlRecOn loops _
    (motive := fun rows : List (Fields Node) => ∀ row ∈ rows, ∀ field ∈ row, field.2.Tame false)
    (by simp) fun rows known v member row inRows field inRow => ?_
  obtain ⟨before, inBefore, extended⟩ := List.mem_flatMap.mp inRows
  obtain ⟨element, inElements, rfl⟩ := List.mem_map.mp extended
  obtain ⟨index, value⟩ := tame v member element inElements
  rcases Fields.mem_insert inRow with rfl | older
  · exact index
  · rcases Fields.mem_insert older with rfl | oldest
    · exact value
    · exact known before inBefore field oldest

/-- A row yields a still value. Its key has no brackets, and a still key template is that key. -/
def RowTame (mapkey : Option Node) (result : Option String × Value) : Prop :=
  result.2.Still ∧ ∀ key ∈ result.1, isBare key = true ∧
    ∀ template ∈ mapkey, template.Still → template.value.asText? = some key

section

variable {body : Node} {mapkey : Option Node} {binding : Binding} (below : DeeperHalts deeper)
  (tame : body.Tame true) (key : ∀ template ∈ mapkey, template.Tame true) (place : binding.Tame)

include below tame key place

theorem loopRow_halts {row : Fields Node} (named : ∀ field ∈ row, field.2.Tame false) :
    Eval.Halts (fun steps => loopRow (deeper steps) body mapkey binding row) (RowTame mapkey) := by
  have locals : ∀ names ∈ some row, ∀ field ∈ names, field.2.Tame true := by
    rintro _ ⟨⟩
    exact fun field member => (named field member).asWritten
  unfold loopRow
  refine (below.flowNested body binding (some row) none tame place locals (by simp)).bind
    fun value known => ?_
  dsimp only
  split
  · exact .pure ⟨known.1, by simp⟩
  · next template =>
    refine (below.flowNested template binding (some row) none (key template rfl) place locals
      (by simp)).bind fun result text => ?_
    split
    · next name reads =>
      refine .pure ⟨known.1, ?_⟩
      rintro _ ⟨⟩
      refine ⟨text.1.1.isBare_of_asText? reads, ?_⟩
      rintro _ ⟨⟩ still
      rw [reads] at text
      exact ((text.2 still rfl).resolve_left (fun absent => by cases absent)).symm
    · exact .mismatch

theorem loopResults_halts {loops : List LoopVariable} {index : Nat} {rows : List (Fields Node)}
    (named : ∀ row ∈ rows, ∀ field ∈ row, field.2.Tame false) :
    Eval.Halts (fun steps => loopResults (deeper steps) body mapkey binding loops index rows)
      fun outcome => ∀ result ∈ outcome.1, RowTame mapkey result := by
  induction rows generalizing index with
  | nil =>
    simp only [loopResults]
    exact .pure (by simp)
  | cons row rest ih =>
    simp only [loopResults]
    refine (loopRow_halts below tame key place (named row List.mem_cons_self)).outcome.bind
      fun outcome known => ?_
    refine (ih fun row member => named row (List.mem_cons_of_mem _ member)).bind
      fun others later => ?_
    obtain ⟨results, failures⟩ := others
    dsimp only
    split
    · exact .pure (List.forall_mem_cons.mpr ⟨known, later⟩)
    · exact .pure later

end

/-- Entries of one key make a map with one field at most. -/
theorem length_ofList_le (key : String) {entries : List (String × Node)}
    (same : ∀ entry ∈ entries, entry.1 = key) : (Fields.ofList entries).length ≤ 1 := by
  have distinct := (Fields.sorted_ofList entries).distinct
  have alike : ∀ field ∈ Fields.ofList entries, field.1 = key :=
    fun field member => same field (Fields.mem_ofList member)
  rcases known : Fields.ofList entries with - | ⟨a, - | ⟨b, rest⟩⟩
  · simp
  · simp
  · rw [known] at distinct alike
    have differ : a.1 ≠ b.1 := by
      have := (List.nodup_cons.mp distinct).1
      simp only [List.map_cons, List.mem_cons, not_or] at this
      exact this.1
    exact absurd ((alike a (by simp)).trans (alike b (by simp)).symm) differ

theorem controlCount_le_length (fields : Fields Node) : controlCount fields ≤ fields.length := by
  rw [controlCount, controlNames]
  exact (List.length_filterMap_le _ _).trans_eq (List.length_map _)

/-- A map of still rows holds no expression, and there are no controls below its fields. -/
theorem rowMap_tame (source : String) {entries : List (String × Node)}
    (rows : ∀ entry ∈ entries, isBare entry.1 = true ∧ entry.2.Still) :
    (Node.plain (.map (Fields.ofList entries)) source).Tame false ∧
      (Node.plain (.map (Fields.ofList entries)) source).rank ≤
        min 2 (Fields.ofList entries).length := by
  have inside := fun field member => rows field (Fields.mem_ofList member)
  refine ⟨Node.tame_plain.mpr (Value.tame_map.mpr ⟨Fields.sorted_ofList entries,
    fun field member => ?_⟩), ?_⟩
  · obtain ⟨bare, still⟩ := inside field member
    exact ⟨bare, still.1, fun _ => .inr still⟩
  · have none : fieldsRank (Fields.ofList entries) ≤ 0 :=
      fieldsRank_le_iff.mpr fun field member => Nat.le_of_eq (inside field member).2.2
    have count := controlCount_le_length (Fields.ofList entries)
    change min 2 (controlCount _) + fieldsRank _ ≤ _
    omega

section

variable {source : String} {results : List (Option String × Value)}

theorem loopList_still (rows : ∀ result ∈ results, result.2.Still) :
    (loopNode source false results).Still := by
  have inside : ∀ item ∈ results.map fun result => Node.plain result.2 source, item.Still := by
    intro item member
    obtain ⟨result, known, rfl⟩ := List.mem_map.mp member
    exact ⟨Node.tame_plain.mpr (rows result known).1, (rows result known).2⟩
  exact ⟨Node.tame_plain.mpr (Value.tame_list.mpr fun item member => (inside item member).1),
    rank_list_eq_zero_iff.mpr fun item member => (inside item member).2⟩

/-- A map of rows is smaller than a node that holds expressions, or whose key template has controls.
Otherwise the template is still and makes one key at most, and there are two control keys in the
node. -/
theorem rowMap_followsOn {entries : List (String × Node)} {template : Node}
    (option : template.IsOptionOf node)
    (rows : ∀ entry ∈ entries, (isBare entry.1 = true ∧ entry.2.Still) ∧
      (template.Still → template.value.asText? = some entry.1)) :
    FollowsOn node (some (.plain (.map (Fields.ofList entries)) source)) := by
  obtain ⟨tame, rank⟩ := rowMap_tame source fun entry member => (rows entry member).1
  have none := Node.pending_of_tame_false tame
  obtain ⟨asWritten, pending, nested⟩ := option
  rintro _ ⟨⟩
  refine ⟨tame.asWritten, ?_⟩
  rcases Nat.eq_zero_or_pos node.pending with nothing | some
  · refine .of_rank (by omega) ?_
    rcases Nat.eq_zero_or_pos template.rank with plain | controlled
    · have still : template.Still := ⟨Node.tame_false_iff.mpr ⟨asWritten, by omega⟩, plain⟩
      have one := length_ofList_le ((template.value.asText?).getD "") fun entry member => by
        rw [(rows entry member).2 still]
        rfl
      omega
    · omega
  · exact .inl (by omega)

theorem loopMap_followsOn {template : Node} (option : template.IsOptionOf node)
    (rows : ∀ result ∈ results, RowTame (some template) result) :
    FollowsOn node (some (loopNode source true results)) := by
  refine rowMap_followsOn option fun entry member => ?_
  obtain ⟨result, known, made⟩ := List.mem_filterMap.mp member
  obtain ⟨key, given, rfl⟩ := Option.map_eq_some_iff.mp made
  obtain ⟨still, keys⟩ := rows result known
  exact ⟨⟨(keys key given).1, ⟨Node.tame_plain.mpr still.1, still.2⟩⟩, (keys key given).2 _ rfl⟩

end

theorem loop_halts : Control.loop.Halts := by
  intro deeper resolve node context below _ given
  refine (loopVariables_halts given.value).bind fun loops known => ?_
  dsimp only
  split
  · exact .fail
  · next body found =>
    have key : ∀ template ∈ context.option? "mapkey", template.Tame true :=
      fun template member => (given.option member).1
    refine (loopResults_halts below (given.option found).1 key given.place
      (tame_loopRows known)).bind fun outcome rows => ?_
    obtain ⟨results, failures⟩ := outcome
    dsimp only
    split
    · refine .pure ?_
      cases mapkey : context.option? "mapkey" with
      | none =>
        obtain ⟨tame, rank⟩ : (loopNode context.node.source false results).Still :=
          loopList_still fun result member => (rows result member).1
        rintro _ ⟨⟩
        refine ⟨tame.asWritten, .of_rank ?_ ?_⟩
        · exact (Node.pending_of_tame_false tame).trans_le (Nat.zero_le _)
        · exact rank.trans_lt given.carried
      | some template =>
        rw [mapkey] at rows
        exact loopMap_followsOn (given.option mapkey) rows
    · exact .throw (isExplained_aggregate _ _ _)

/-- The standard controls come to an end. -/
theorem Control.standard_halt : ∀ entry ∈ Control.standard, Control.Halts entry.2 := by
  simp only [Control.standard, List.forall_mem_cons]
  exact ⟨loop_halts, conditional_halts, merge_halts, switch_halts, type_halts, by simp⟩

/-! ### The control of a map -/

section

variable {fields : Fields Node} {annotations : Annotations} {source : String} {binding : Binding}

/-- Options that are handed over as written are fields of the map. -/
theorem controlOptions_halts {name : String} {specs : List OptionSpec}
    (written : ∀ spec ∈ specs, spec.template = true) :
    Eval.Halts (fun steps => controlOptions (resolve steps) name fields binding specs) fun options =>
      ∀ option ∈ options,
        (∃ spec ∈ specs, spec.name = option.1) ∧ (controlKey option.1, option.2) ∈ fields := by
  induction specs with
  | nil =>
    simp only [controlOptions]
    exact .pure (by simp)
  | cons spec rest ih =>
    obtain ⟨template, later⟩ := List.forall_mem_cons.mp written
    have others : Eval.Halts
        (fun steps => controlOptions (resolve steps) name fields binding rest) fun options =>
          ∀ option ∈ options, (∃ known ∈ spec :: rest, known.name = option.1) ∧
            (controlKey option.1, option.2) ∈ fields := by
      refine (ih later).mono fun options known option member => ?_
      obtain ⟨⟨other, among, same⟩, inside⟩ := known option member
      exact ⟨⟨other, List.mem_cons_of_mem _ among, same⟩, inside⟩
    simp only [controlOptions, template, if_true]
    split
    · next option found =>
      simp only [pure_bind]
      refine others.bind fun options known => .pure (List.forall_mem_cons.mpr ⟨?_, known⟩)
      exact ⟨⟨spec, List.mem_cons_self, rfl⟩, Fields.mem_of_find? found⟩
    · split
      · exact .fail
      · exact others

/-- The fields that belong neither to a control nor to its options hold no more expressions than the
map, and none of those under the key of the control. -/
theorem ownFields_halts {name : String} (named : name ≠ "") {specs : List OptionSpec} :
    Eval.Halts (fun _ => ownFields name specs fields) fun own =>
      (∀ field ∈ own, field ∈ fields ∧ IsPlainKey field.1) ∧
        fieldsPending own ≤ fieldsPending fields ∧
        ∀ written, Fields.find? fields (controlKey name) = some written →
          fieldsPending own + written.pending ≤ fieldsPending fields := by
  induction fields with
  | nil =>
    simp only [ownFields]
    exact .pure (by simp)
  | cons field rest ih =>
    obtain ⟨key, child⟩ := field
    have kept (plain : IsPlainKey key) :
        Eval.Halts (fun _ => do return (key, child) :: (← ownFields name specs rest)) fun own =>
          (∀ field ∈ own, field ∈ (key, child) :: rest ∧ IsPlainKey field.1) ∧
            fieldsPending own ≤ fieldsPending ((key, child) :: rest) ∧
            ∀ written, Fields.find? ((key, child) :: rest) (controlKey name) = some written →
              fieldsPending own + written.pending ≤ fieldsPending ((key, child) :: rest) := by
      refine ih.bind fun own known => .pure ?_
      obtain ⟨members, count, input⟩ := known
      refine ⟨List.forall_mem_cons.mpr ⟨⟨List.mem_cons_self, plain⟩, fun field member =>
        ⟨List.mem_cons_of_mem _ (members field member).1, (members field member).2⟩⟩, ?_,
        fun written found => ?_⟩
      · simp only [fieldsPending]
        omega
      · have differs : key ≠ controlKey name := by
          rintro rfl
          simp [IsPlainKey, controlSuffix?_controlKey, named] at plain
        rw [Fields.find?_cons, if_neg differs] at found
        have := input written found
        simp only [fieldsPending]
        omega
    simp only [ownFields]
    split
    · next suffix =>
      exact kept (by rw [IsPlainKey, suffix]; rfl)
    · split
      · next directive =>
        exact kept (by rw [IsPlainKey, directive]; decide)
      · split
        · refine ih.mono fun own known => ?_
          obtain ⟨members, count, input⟩ := known
          refine ⟨fun field member =>
            ⟨List.mem_cons_of_mem _ (members field member).1, (members field member).2⟩, ?_,
            fun written found => ?_⟩
          · simp only [fieldsPending]
            omega
          · rw [Fields.find?_cons] at found
            split at found
            · cases found
              simp only [fieldsPending]
              omega
            · have := input written found
              simp only [fieldsPending]
              omega
        · exact .fail

variable (below : DeeperHalts deeper)
  (resolves : ResolvesBelow resolve ⟨.map fields, annotations, source⟩)
  (tame : (Node.mk (.map fields) annotations source).Tame true) (place : binding.Tame)

include below resolves tame place

theorem dispatchControl_halts {name : String} {control : Control} (halts : control.Halts)
    (options : ∀ spec ∈ control.options,
      spec.template = true ∧ spec.name ≠ "" ∧ spec.name ≠ name)
    (carried : name ∈ controlNames fields) :
    Eval.Halts
      (fun steps => dispatchControl (deeper steps) (resolve steps) name control
        ⟨.map fields, annotations, source⟩ fields binding)
      (FollowsOn ⟨.map fields, annotations, source⟩) := by
  obtain ⟨named, written, found⟩ := find?_of_controlNames carried
  have inside := Value.Tame.fields tame.value
  have input := Fields.mem_of_find? found
  have positive : 0 < controlCount fields := List.length_pos_of_mem carried
  have rank : (Node.mk (.map fields) annotations source).rank =
      min 2 (controlCount fields) + fieldsRank fields := rfl
  unfold dispatchControl
  simp only [found, Option.getD_some]
  refine (resolves written _ (Node.smaller_of_mem_map input) (inside _ input).tame
    (place.child _)).bind fun value computed => ?_
  refine (controlOptions_halts fun spec member => (options spec member).1).bind
    fun given known => ?_
  refine (ownFields_halts named).bind fun own others => ?_
  obtain ⟨members, count, whole⟩ := others
  refine halts deeper resolve _ _ below resolves
    { value := computed.1, carried := ?carried, place, pending := count, input := ?input
      fields := fun field member => ?fields, option := fun {key option} found => ?option }
  case carried => omega
  case input =>
    rcases Nat.eq_zero_or_pos written.pending with nothing | some
    · exact .inl (computed.2 nothing)
    · have := whole written found
      change _ ∨ fieldsPending own < fieldsPending fields
      omega
  case fields =>
    obtain ⟨known, plain⟩ := members field member
    have nested := rank_le_fieldsRank known
    exact ⟨inside field known, plain, by omega⟩
  case option =>
    obtain ⟨⟨spec, among, same⟩, known⟩ :=
      known (key, option) (Fields.mem_ofList (Fields.mem_of_find? found))
    obtain rfl : spec.name = key := same
    obtain ⟨-, named', differs⟩ := options spec among
    -- The keys of the control and of its option count twice, and neither is in the option.
    have two := one_lt_controlCount carried (controlNames_of_mem named' known) (Ne.symm differs)
    have nested := rank_le_fieldsRank known
    exact ⟨(inside _ known).tame, pending_le_fieldsPending known, by dsimp only at nested; omega⟩

/-- The control of a tame map comes to an end, with a smaller node if any. -/
theorem runControl_halts {engine : Engine} (registered : engine.controls = Control.standard)
    {first : String} {rest : List String} (carried : controlNames fields = first :: rest) :
    ∃ run : Nat → Eval (Option Node),
      (∀ steps, runControl engine (deeper steps) (resolve steps) ⟨.map fields, annotations, source⟩
        fields binding = some (run steps)) ∧
      Eval.Halts run (FollowsOn ⟨.map fields, annotations, source⟩) := by
  simp only [runControl, carried, Option.some.injEq]
  refine ⟨_, fun steps => rfl, ?_⟩
  split
  · exact .fail
  · next name control known =>
    have member : (name, control) ∈ (first :: rest).filterMap fun name =>
        (Fields.find? engine.controls name).map fun control => (name, control) :=
      known ▸ List.mem_cons_self
    obtain ⟨other, among, found⟩ := List.mem_filterMap.mp member
    obtain ⟨c, found, same⟩ := Option.map_eq_some_iff.mp found
    cases same
    rw [registered] at found
    have entry := Fields.mem_of_find? found
    have options : ∀ entry ∈ Control.standard, ∀ spec ∈ entry.2.options,
        spec.template = true ∧ spec.name ≠ "" ∧ spec.name ≠ entry.1 := by decide
    exact dispatchControl_halts below resolves tame place (Control.standard_halt _ entry)
      (options _ entry) (carried ▸ among)
  · exact .fail

end

end Cascade
