import Cascade.Proofs.PassSteps

/-!
# Branches that are not picked

The branches of `<<if`, `<<switch` and `<<type` are options that are handed over as written, so what
is not picked is never flowed. Once the value of the control is there, two maps that differ only in
such branches come to the same outcome: the other one of `<<then` and `<<else`, cases under other
keys, the default where a case matches, and in a list of cases the values of entries that do not
match and everything behind the first that does.

What the map flows to is the outcome, flowed on. One thing depends on the branches nonetheless: a
control that fails leaves the map as it is written, to be read again in the next pass.

## Main definitions

* `AlikeBut`, `OtherEntries`, `OtherCases`, `Unpicked`: maps that differ where the value does not
  pick.
* `FlowsAlike`: how such maps flow.

## Main results

* `run_selectCase_of_otherEntries`: one entry after the other, lists of cases are searched alike.
* `Unpicked.run_eq`, `Unpicked.dispatchControl_eq`: the outcome of the control.
* `flowNode_unpicked`: the results of the pass.
-/

namespace Cascade

open Eval

/-! ### Fields that differ -/

/-- Fields that are alike but for what some keys have. -/
structure AlikeBut (except : List String) (fields fields' : Fields Node) : Prop where
  keys_eq : Fields.keys fields' = Fields.keys fields
  find?_eq : ∀ key ∉ except, Fields.find? fields' key = Fields.find? fields key

theorem AlikeBut.refl (except : List String) (fields : Fields Node) :
    AlikeBut except fields fields :=
  ⟨rfl, fun _ _ => rfl⟩

/-- Any node may stand at a key that is excepted. -/
theorem AlikeBut.cons {except : List String} {fields fields' : Fields Node}
    (alike : AlikeBut except fields fields') {key : String} (excepted : key ∈ except)
    (node node' : Node) : AlikeBut except ((key, node) :: fields) ((key, node') :: fields') where
  keys_eq := congrArg (List.cons key) alike.keys_eq
  find?_eq := by
    intro other isOther
    have differs : key ≠ other := fun same => isOther (same ▸ excepted)
    rw [Fields.find?_cons, Fields.find?_cons, if_neg differs, if_neg differs]
    exact alike.find?_eq other isOther

/-! ### Lists of cases -/

section

variable (deeper : Deeper) (resolve : Node → Binding → Eval Node) (value : Node) (binding : Binding)

/-- A case matches the value of a choice. -/
def matchesValue (case : Node) : Eval Bool :=
  match case.value with
  | .lambda predicate => do
    return (← deeper.invoke predicate [.positional value] binding).value.isTruthy
  | other => pure (other.looseEq value.value)

/-- Whether the entry of an index matches. -/
def entryMatches (index : Nat) (entry : Node) : Eval Bool :=
  match entry.field? "case", entry.field? "value" with
  | some case, some _ => do
    let case ← resolve case
      (((binding.child (controlKey "cases")).child (Path.indexSegment index)).child "case")
    matchesValue deeper value binding case
  | _, _ =>
    fail (.custom ("case " ++ toString (index + 1) ++ " needs 'case' and 'value' fields"))

/-- Entries that differ, if at all, in their values. -/
structure SameCase (entry entry' : Node) : Prop where
  case_eq : entry'.field? "case" = entry.field? "case"
  hasValue : (entry'.field? "value").isSome = (entry.field? "value").isSome

/-- Lists of cases from an index on that differ, if at all, in the values of entries that do not
match and in all entries behind the first that does, or that fails. -/
inductive OtherEntries : (decided : Bool) → Nat → World → List Node → List Node → Prop
  | nil (index : Nat) (world : World) : OtherEntries false index world [] []
  | passed {decided : Bool} {index : Nat} {world world' : World} {entry entry' : Node}
      {rest rest' : List Node} (same : SameCase entry entry')
      (differs : (entryMatches deeper resolve value binding index entry).run world =
        some (.ok false, world'))
      (later : OtherEntries decided (index + 1) world' rest rest') :
      OtherEntries decided index world (entry :: rest) (entry' :: rest')
  | picked {index : Nat} {world world' : World} {entry : Node} {rest rest' : List Node}
      (agrees : (entryMatches deeper resolve value binding index entry).run world =
        some (.ok true, world')) :
      OtherEntries true index world (entry :: rest) (entry :: rest')
  | stuck {index : Nat} {world world' : World} {entry entry' : Node} {rest rest' : List Node}
      {u : Unresolved} (same : SameCase entry entry')
      (fails : (entryMatches deeper resolve value binding index entry).run world =
        some (.error u, world')) :
      OtherEntries true index world (entry :: rest) (entry' :: rest')

/-- Cases that differ, if at all, where the value does not look. `decided` says that a case is
picked, or that looking for one fails, so that the default is not asked for. -/
inductive OtherCases (world : World) : ControlId → (decided : Bool) → Value → Value → Prop
  | keys {cases cases' : Fields Node} (keys_eq : Fields.keys cases' = Fields.keys cases)
      (picked : ∀ key ∈ value.value.asText?, Fields.find? cases' key = Fields.find? cases key) :
      OtherCases world .switch (value.value.asText?.bind (Fields.find? cases)).isSome
        (.map cases) (.map cases')
  | entries {decided : Bool} {entries entries' : List Node}
      (others : OtherEntries deeper resolve value binding decided 0 world entries entries') :
      OtherCases world .switch decided (.list entries) (.list entries')
  | types {cases cases' : Fields Node} (keys_eq : Fields.keys cases' = Fields.keys cases)
      (picked : Fields.find? cases' value.value.typeName =
        Fields.find? cases value.value.typeName) :
      OtherCases world .type (Fields.find? cases value.value.typeName).isSome
        (.map cases) (.map cases')

/-- The fields of maps with one choice that differ, if at all, in branches that the value does not
pick. -/
inductive Unpicked (world : World) : ControlId → Fields Node → Fields Node → Prop
  | branch {fields fields' : Fields Node}
      (alike : AlikeBut [controlKey (if value.value.isTruthy then "else" else "then")]
        fields fields') :
      Unpicked world .conditional fields fields'
  | cases {id : ControlId} {decided : Bool} {fields fields' : Fields Node} {cases cases' : Value}
      (given : (Fields.find? fields (controlKey "cases")).map Node.value = some cases)
      (given' : (Fields.find? fields' (controlKey "cases")).map Node.value = some cases')
      (others : OtherCases deeper resolve value binding world id decided cases cases')
      (sameDefault : decided = false →
        Fields.find? fields' (controlKey "default") = Fields.find? fields (controlKey "default"))
      (alike : AlikeBut [controlKey "cases", controlKey "default"] fields fields') :
      Unpicked world id fields fields'

end

section

variable {deeper : Deeper} {resolve : Node → Binding → Eval Node} {value : Node} {binding : Binding}
  {world world' : World}

theorem entryMatches_of_sameCase {entry entry' : Node} (same : SameCase entry entry')
    (index : Nat) : entryMatches deeper resolve value binding index entry' =
      entryMatches deeper resolve value binding index entry := by
  obtain ⟨case_eq, hasValue⟩ := same
  unfold entryMatches
  rw [case_eq]
  cases entry.field? "case" with
  | none => rfl
  | some case =>
    cases first : entry.field? "value" with
    | none =>
      rw [first] at hasValue
      rw [Option.isNone_iff_eq_none.mp (Option.isSome_eq_false_iff.mp hasValue)]
    | some _ =>
      rw [first] at hasValue
      obtain ⟨_, second⟩ := Option.isSome_iff_exists.mp hasValue
      rw [second]

/-- What a control sees of the value and the place. -/
structure ControlContext.Sees (context : ControlContext) (value : Node) (binding : Binding) :
    Prop where
  value_eq : context.value = value
  binding_eq : context.binding = binding

theorem selectCase_cons {context : ControlContext} (sees : context.Sees value binding)
    (index : Nat) (entry : Node) (rest : List Node) :
    selectCase deeper resolve context (binding.child (controlKey "cases")) index (entry :: rest) =
      (do
        if ← entryMatches deeper resolve value binding index entry then
          return entry.field? "value"
        else
          selectCase deeper resolve context (binding.child (controlKey "cases")) (index + 1) rest)
    := by
  obtain ⟨rfl, rfl⟩ := sees
  rw [selectCase]
  unfold entryMatches
  cases entry.field? "case" with
  | none => rfl
  | some case =>
    cases entry.field? "value" with
    | none => rfl
    | some _ =>
      simp only [bind_assoc]
      rfl

/-- An entry that can be looked at has a value. -/
theorem hasValue_of_entryMatches {index : Nat} {entry : Node} {truth : Bool}
    (decides : (entryMatches deeper resolve value binding index entry).run world =
      some (.ok truth, world')) : ∃ picked, entry.field? "value" = some picked := by
  unfold entryMatches at decides
  cases hasCase : entry.field? "case" with
  | none =>
    rw [hasCase] at decides
    cases decides
  | some case =>
    cases hasValue : entry.field? "value" with
    | none =>
      rw [hasCase, hasValue] at decides
      cases decides
    | some picked => exact ⟨picked, rfl⟩

/-- Whatever entries decide nothing, the same is picked from lists that differ in them, and a list
with a deciding entry does not leave the choice to the default. -/
theorem run_selectCase_of_otherEntries {context context' : ControlContext} {decided : Bool}
    {index : Nat} {entries entries' : List Node} (sees : context.Sees value binding)
    (sees' : context'.Sees value binding)
    (others : OtherEntries deeper resolve value binding decided index world entries entries') :
    (selectCase deeper resolve context' (binding.child (controlKey "cases")) index entries').run
        world =
      (selectCase deeper resolve context (binding.child (controlKey "cases")) index entries).run
        world ∧
    (decided = true → ∀ world',
      (selectCase deeper resolve context (binding.child (controlKey "cases")) index entries).run
        world ≠ some (.ok none, world')) := by
  -- Both searches look at an entry in the world that the entries before it have left, which is the
  -- same for the two lists; the induction goes along the entries that are passed.
  induction others with
  | nil => exact ⟨rfl, fun decides => by cases decides⟩
  | passed same differs later ih =>
    rw [selectCase_cons sees, selectCase_cons sees', entryMatches_of_sameCase same,
      Eval.bind_of_ok differs, Eval.bind_of_ok differs]
    exact ih
  | @picked index world world' entry rest rest' agrees =>
    rw [selectCase_cons sees, selectCase_cons sees', Eval.bind_of_ok agrees,
      Eval.bind_of_ok agrees]
    refine ⟨rfl, fun _ last none => ?_⟩
    obtain ⟨picked, hasValue⟩ := hasValue_of_entryMatches agrees
    rw [hasValue] at none
    cases none
  | stuck same fails =>
    rw [selectCase_cons sees, selectCase_cons sees', entryMatches_of_sameCase same,
      Eval.bind_of_error fails, Eval.bind_of_error fails]
    exact ⟨rfl, fun _ _ none => by cases none⟩

/-! ### Choices -/

theorem run_choose_congr {context context' : ControlContext}
    {selection selection' : Eval (Option Node)} (same : selection'.run world = selection.run world)
    (sameDefault : ∀ world', selection.run world = some (.ok none, world') →
      context'.option? "default" = context.option? "default") (what : String) :
    (selection' >>= fun selected => choose context' selected what).run world =
      (selection >>= fun selected => choose context selected what).run world := by
  change (selection'.run world).bind _ = (selection.run world).bind _
  rw [same]
  cases yields : selection.run world with
  | none => rfl
  | some result =>
    obtain ⟨outcome, world'⟩ := result
    cases outcome with
    | error u => rfl
    | ok selected =>
      cases selected with
      | some picked => rfl
      | none =>
        have same := sameDefault world' yields
        change (choose context' none what).run world' = (choose context none what).run world'
        unfold choose
        rw [same]

/-- The context of a choice, as the fields of the map that carries it make it. -/
structure ControlContext.IsOf (context : ControlContext) (id : ControlId) (fields : Fields Node)
    (value : Node) (binding : Binding) : Prop extends context.Sees value binding where
  option?_eq : ∀ spec ∈ id.options,
    context.option? spec.name = Fields.find? fields (controlKey spec.name)

theorem ControlContext.IsOf.option?_of_cases {context : ControlContext} {id : ControlId}
    {fields : Fields Node} {value : Node} {binding : Binding}
    (isOf : context.IsOf id fields value binding)
    (isChoice : id.options = ControlId.switch.options) {name : String}
    (isOption : name = "cases" ∨ name = "default") :
    context.option? name = Fields.find? fields (controlKey name) := by
  refine isOf.option?_eq ⟨name, true, false⟩ ?_
  rw [isChoice]
  rcases isOption with rfl | rfl
  · decide
  · decide

/-- The standard control of a name. -/
def ControlId.standard : ControlId → Control
  | .conditional => Control.conditional
  | .switch => Control.switch
  | .type => Control.type
  | .loop => Control.loop
  | .merge => Control.merge

variable {id : ControlId} {fields fields' : Fields Node} {context context' : ControlContext}
  {decided : Bool} {cases cases' : Value}

theorem OtherCases.run_switchCase
    (others : OtherCases deeper resolve value binding world .switch decided cases cases')
    (sees : context.Sees value binding) (sees' : context'.Sees value binding)
    (given : (context.option? "cases").map Node.value = some cases)
    (given' : (context'.option? "cases").map Node.value = some cases') :
    (switchCase deeper resolve context').run world = (switchCase deeper resolve context).run world ∧
    (decided = true → ∀ world',
      (switchCase deeper resolve context).run world ≠ some (.ok none, world')) := by
  unfold switchCase
  rw [given, given', sees.value_eq, sees'.value_eq, sees.binding_eq, sees'.binding_eq]
  cases others with
  | entries others => exact run_selectCase_of_otherEntries sees sees' others
  | keys _ picked =>
    cases text : value.value.asText? with
    | none => exact ⟨rfl, fun _ _ none => by cases none⟩
    | some key =>
      have same := picked key text
      simp only [same]
      refine ⟨trivial, fun decides _ none => ?_⟩
      rw [Option.bind_some] at decides
      obtain ⟨node, found⟩ := Option.isSome_iff_exists.mp decides
      rw [found] at none
      cases none

theorem OtherCases.run_typeCase
    (others : OtherCases deeper resolve value binding world .type decided cases cases')
    (sees : context.Sees value binding) (sees' : context'.Sees value binding)
    (given : (context.option? "cases").map Node.value = some cases)
    (given' : (context'.option? "cases").map Node.value = some cases') :
    (typeCase context').run world = (typeCase context).run world ∧
    (decided = true → ∀ world', (typeCase context).run world ≠ some (.ok none, world')) := by
  unfold typeCase
  rw [given, given', sees.value_eq, sees'.value_eq]
  cases others with
  | types keys_eq picked =>
    simp only [keys_eq, picked]
    refine ⟨trivial, fun decides _ none => ?_⟩
    obtain ⟨node, found⟩ := Option.isSome_iff_exists.mp decides
    rw [found] at none
    split at none <;> cases none

/-- What a choice yields does not depend on what it does not pick. -/
theorem Unpicked.run_eq (unpicked : Unpicked deeper resolve value binding world id fields fields')
    (isOf : context.IsOf id fields value binding) (isOf' : context'.IsOf id fields' value binding) :
    (id.standard.run deeper resolve context').run world =
      (id.standard.run deeper resolve context).run world := by
  cases unpicked with
  | branch alike =>
    have then? := isOf.option?_eq ⟨"then", true, false⟩ (by decide)
    have else? := isOf.option?_eq ⟨"else", true, false⟩ (by decide)
    have then?' := isOf'.option?_eq ⟨"then", true, false⟩ (by decide)
    have else?' := isOf'.option?_eq ⟨"else", true, false⟩ (by decide)
    change (pure (context'.option? (if context'.value.value.isTruthy then _ else _)) :
      Eval (Option Node)).run world = (pure (context.option?
        (if context.value.value.isTruthy then _ else _)) : Eval (Option Node)).run world
    rw [isOf.value_eq, isOf'.value_eq]
    cases truthy : value.value.isTruthy with
    | true =>
      rw [truthy] at alike
      rw [if_pos rfl, then?, then?', alike.find?_eq _ (by decide)]
    | false =>
      rw [truthy] at alike
      rw [if_neg Bool.false_ne_true, else?, else?', alike.find?_eq _ (by decide)]
  | @cases _ decided _ _ cases cases' given given' others sameDefault alike =>
    -- The default is read only if nothing was picked, and where a case decides something is.
    have atDefault {selection : Eval (Option Node)}
        (isChoice : id.options = ControlId.switch.options)
        (decides : decided = true → ∀ world', selection.run world ≠ some (.ok none, world'))
        (world' : World) (none : selection.run world = some (.ok none, world')) :
        context'.option? "default" = context.option? "default" := by
      have undecided : decided = false := by
        cases decided with
        | false => rfl
        | true => exact absurd none (decides rfl world')
      rw [isOf.option?_of_cases isChoice (by decide), isOf'.option?_of_cases isChoice (by decide),
        sameDefault undecided]
    have cases? (isChoice : id.options = ControlId.switch.options) :
        (context.option? "cases").map Node.value = some cases := by
      rw [isOf.option?_of_cases isChoice (by decide), given]
    have cases?' (isChoice : id.options = ControlId.switch.options) :
        (context'.option? "cases").map Node.value = some cases' := by
      rw [isOf'.option?_of_cases isChoice (by decide), given']
    have value_eq := isOf'.value_eq.trans isOf.value_eq.symm
    cases id with
    | switch =>
      obtain ⟨same, decides⟩ := others.run_switchCase isOf.toSees isOf'.toSees (cases? rfl)
        (cases?' rfl)
      change (switchCase deeper resolve context' >>= fun selected =>
        choose context' selected context'.value.value.display).run world =
        (switchCase deeper resolve context >>= fun selected =>
          choose context selected context.value.value.display).run world
      rw [value_eq]
      exact run_choose_congr same (atDefault rfl decides) _
    | type =>
      obtain ⟨same, decides⟩ := others.run_typeCase isOf.toSees isOf'.toSees (cases? rfl)
        (cases?' rfl)
      change (typeCase context' >>= fun selected =>
        choose context' selected context'.value.value.typeName).run world =
        (typeCase context >>= fun selected =>
          choose context selected context.value.value.typeName).run world
      rw [value_eq]
      exact run_choose_congr same (atDefault rfl decides) _
    | _ => cases others

theorem Unpicked.keys_eq
    (unpicked : Unpicked deeper resolve value binding world id fields fields') :
    Fields.keys fields' = Fields.keys fields := by
  cases unpicked with
  | branch alike => exact alike.keys_eq
  | cases _ _ _ _ alike => exact alike.keys_eq

/-- The value of a choice is no branch of it. -/
theorem Unpicked.find?_control
    (unpicked : Unpicked deeper resolve value binding world id fields fields') :
    Fields.find? fields' (controlKey id.name) = Fields.find? fields (controlKey id.name) := by
  cases unpicked with
  | branch alike =>
    apply alike.find?_eq
    cases value.value.isTruthy <;> decide
  | cases _ _ others _ alike =>
    apply alike.find?_eq
    cases others <;> decide

theorem Unpicked.find?_directive
    (unpicked : Unpicked deeper resolve value binding world id fields fields') :
    Fields.find? fields' directiveKey = Fields.find? fields directiveKey := by
  cases unpicked with
  | branch alike =>
    apply alike.find?_eq
    cases value.value.isTruthy <;> decide
  | cases _ _ _ _ alike => exact alike.find?_eq _ (by decide)

/-- A choice has no option but branches. -/
theorem Unpicked.options_eq
    (unpicked : Unpicked deeper resolve value binding world id fields fields') :
    ∀ spec ∈ id.standard.options, spec.template = true ∧ spec.required = false := by
  cases unpicked with
  | branch alike => decide
  | cases _ _ others _ alike => cases others <;> decide

/-! ### Dispatch -/

/-- The options that a map has, as written. -/
def givenOptions (fields : Fields Node) (specs : List OptionSpec) : List (String × Node) :=
  specs.filterMap fun spec =>
    (Fields.find? fields (controlKey spec.name)).map fun option => (spec.name, option)

theorem controlOptions_of_templates {name : String} {specs : List OptionSpec}
    (templates : ∀ spec ∈ specs, spec.template = true ∧ spec.required = false) :
    controlOptions resolve name fields binding specs = pure (givenOptions fields specs) := by
  induction specs with
  | nil => rfl
  | cons spec rest ih =>
    obtain ⟨template, notRequired⟩ := templates spec List.mem_cons_self
    have others := ih fun spec member => templates spec (List.mem_cons_of_mem _ member)
    rw [controlOptions, others]
    unfold givenOptions
    cases found : Fields.find? fields (controlKey spec.name) with
    | none =>
      simp only [notRequired, Bool.false_eq_true, if_false, List.filterMap_cons, found,
        Option.map_none]
    | some option =>
      simp only [template, if_true, pure_bind, List.filterMap_cons, found, Option.map_some]

theorem mem_givenOptions {specs : List OptionSpec} {name : String} {option : Node} :
    (name, option) ∈ givenOptions fields specs ↔
      (∃ spec ∈ specs, spec.name = name) ∧ Fields.find? fields (controlKey name) = some option := by
  unfold givenOptions
  rw [List.mem_filterMap]
  constructor
  · rintro ⟨spec, member, given⟩
    obtain ⟨_, found, same⟩ := Option.map_eq_some_iff.mp given
    cases same
    exact ⟨⟨spec, member, rfl⟩, found⟩
  · rintro ⟨⟨spec, member, rfl⟩, found⟩
    exact ⟨spec, member, by rw [found, Option.map_some]⟩

/-- An option is found among those that a map has. -/
theorem find?_givenOptions {specs : List OptionSpec} {spec : OptionSpec} (member : spec ∈ specs) :
    Fields.find? (Fields.ofList (givenOptions fields specs)) spec.name =
      Fields.find? fields (controlKey spec.name) := by
  rw [Fields.ofList, Fields.find?_override, Fields.find?_nil, Option.or_none]
  cases last : (givenOptions fields specs).reverse.find? fun entry => entry.1 == spec.name with
  | some entry =>
    have same := List.find?_some last
    have given := (mem_givenOptions.mp (List.mem_reverse.mp (List.mem_of_find?_eq_some last))).2
    rw [beq_iff_eq] at same
    rw [same] at given
    exact given.symm
  | none =>
    cases found : Fields.find? fields (controlKey spec.name) with
    | none => rfl
    | some option =>
      have given := mem_givenOptions.mpr ⟨⟨spec, member, rfl⟩, found⟩
      have differs := List.find?_eq_none.mp last _ (List.mem_reverse.mpr given)
      exact absurd (beq_self_eq_true spec.name) differs

/-- The keys of a map decide whether it has keys that belong to nothing. -/
theorem ownFields_congr (keys_eq : Fields.keys fields' = Fields.keys fields) (name : String)
    (specs : List OptionSpec) :
    (∃ own own', ownFields name specs fields = pure own ∧
        ownFields name specs fields' = pure own') ∨
      ∃ u, ownFields name specs fields = throw u ∧ ownFields name specs fields' = throw u := by
  induction fields generalizing fields' with
  | nil =>
    obtain rfl := List.map_eq_nil_iff.mp keys_eq
    exact .inl ⟨[], [], rfl, rfl⟩
  | cons field rest ih =>
    obtain ⟨_, child⟩ := field
    obtain ⟨⟨key, child'⟩, rest', rfl, rfl, keysRest⟩ := List.map_eq_cons_iff.mp keys_eq
    have others := ih keysRest
    have kept : (∃ own own', (do return (key, child) :: (← ownFields name specs rest)) =
        (pure own : Eval (Fields Node)) ∧
        (do return (key, child') :: (← ownFields name specs rest')) =
          (pure own' : Eval (Fields Node))) ∨
        ∃ u, (do return (key, child) :: (← ownFields name specs rest)) =
          (throw u : Eval (Fields Node)) ∧
          (do return (key, child') :: (← ownFields name specs rest')) =
            (throw u : Eval (Fields Node)) := by
      rcases others with ⟨own, own', left, right⟩ | ⟨u, left, right⟩
      · rw [left, right]
        exact .inl ⟨_, _, rfl, rfl⟩
      · rw [left, right]
        exact .inr ⟨u, rfl, rfl⟩
    rw [ownFields, ownFields]
    simp only
    split
    · exact kept
    · split
      · exact kept
      · split
        · exact others
        · exact .inr ⟨_, rfl, rfl⟩

/-- Once its value is there, a choice is dispatched to the same outcome whatever stands in the
branches that the value does not pick. -/
theorem Unpicked.dispatchControl_eq (node node' : Node) {world₀ : World}
    (sameSource : node'.source = node.source)
    (resolves : (resolve ((Fields.find? fields (controlKey id.name)).getD
      (.plain .nil node.source)) (binding.child (controlKey id.name))).run world₀ =
        some (.ok value, world))
    (unpicked : Unpicked deeper resolve value binding world id fields fields') :
    (dispatchControl deeper resolve id.name id.standard node' fields' binding).run world₀ =
      (dispatchControl deeper resolve id.name id.standard node fields binding).run world₀ := by
  have resolves' := resolves
  rw [← unpicked.find?_control, ← sameSource] at resolves'
  unfold dispatchControl
  simp only
  rw [Eval.bind_of_ok resolves, Eval.bind_of_ok resolves',
    controlOptions_of_templates unpicked.options_eq,
    controlOptions_of_templates unpicked.options_eq, pure_bind, pure_bind]
  rcases ownFields_congr unpicked.keys_eq id.name id.standard.options with
    ⟨own, own', left, right⟩ | ⟨u, left, right⟩
  · rw [left, right, pure_bind, pure_bind]
    have options : id.standard.options = id.options := by cases id <;> rfl
    rw [options]
    exact unpicked.run_eq ⟨⟨rfl, rfl⟩, fun spec member => find?_givenOptions member⟩
      ⟨⟨rfl, rfl⟩, fun spec member => find?_givenOptions member⟩
  · rw [left, right]
    rfl

end

/-! ### Flowing the map -/

/-- A map carries one control that the engine knows, and that is a standard one. -/
def Carries (engine : Engine) (fields : Fields Node) (id : ControlId) : Prop :=
  (controlNames fields).filterMap (fun name =>
    (Fields.find? engine.controls name).map fun control => (name, control)) =
      [(id.name, id.standard)]

/-- No directive captures a map as a template. -/
def IsUncaptured (fields : Fields Node) : Prop :=
  ∀ e, (Fields.find? fields directiveKey).bind Node.expr? = some e → e.isTemplateDirective = false

section

variable (engine : Engine) (deeper : Deeper) (fuel : Nat) (node : Node) (fields : Fields Node)
  (binding : Binding) (overridable : Bool) (world : World)

/-- The control of a map comes to an outcome in a pass. -/
def ControlYields (outcome : Except Unresolved (Option Node)) (world' : World) : Prop :=
  ∃ control,
    runControl engine deeper (flowComplete engine (flowNode engine deeper fuel)) node fields
        binding = some control ∧
    control.run world = some (outcome, world')

/-- The stub value that overrides a map as a whole. -/
def overrideOf (engine : Engine) (node : Node) (binding : Binding) (overridable : Bool) :
    Option Node :=
  if overridable then mapOverride? engine.defaultKey node binding else none

end

section

variable {engine : Engine} {deeper : Deeper} {fuel : Nat} {id : ControlId} {node : Node}
  {fields fields' : Fields Node} {binding : Binding} {overridable : Bool} {world : World}

theorem Carries.of_keys (carries : Carries engine fields id)
    (keys_eq : Fields.keys fields' = Fields.keys fields) : Carries engine fields' id := by
  unfold Carries controlNames at carries ⊢
  rw [keys_eq, carries]

theorem runControl_of_carries (carries : Carries engine fields id)
    (resolve : Node → Binding → Eval Node) (node : Node) (binding : Binding) :
    runControl engine deeper resolve node fields binding =
      some (dispatchControl deeper resolve id.name id.standard node fields binding) := by
  unfold Carries at carries
  unfold runControl
  cases names : controlNames fields with
  | nil =>
    rw [names] at carries
    cases carries
  | cons first rest =>
    rw [names] at carries
    simp only [carries]

/-- What a pass makes of the outcome of a control. -/
def flowOutcome (below : FlowBelow) (node : Node) (binding : Binding) (overridable : Bool) :
    Except Unresolved (Option Node) → Run (Option Node)
  | .ok none => pure none
  | .ok (some result) => below result binding overridable
  | .error u => pure (some (node.withDiagnostic u))

theorem flowMap_of_carries {below : FlowBelow} (carries : Carries engine fields id)
    (uncaptured : IsUncaptured fields)
    (free : overrideOf engine node binding overridable = none) :
    flowMap engine deeper below node fields binding overridable =
      (dispatchControl deeper (flowComplete engine below) id.name id.standard node fields
        binding).run >>= flowOutcome below node binding overridable := by
  have noTemplate : ((Fields.find? fields directiveKey).bind fun written =>
      written.expr?.map fun e => (written, e)).filter (fun d => d.2.isTemplateDirective) =
        none := by
    cases found : Fields.find? fields directiveKey with
    | none => rfl
    | some written =>
      cases read : written.expr? with
      | none => rw [Option.bind_some, read]; rfl
      | some e =>
        have plain := uncaptured e (by rw [found, Option.bind_some, read])
        rw [Option.bind_some, read, Option.map_some, Option.filter_some, plain]
        rfl
  unfold overrideOf at free
  unfold flowMap
  simp only [free, noTemplate, runControl_of_carries carries]
  refine congrArg _ (funext fun outcome => ?_)
  rcases outcome with u | _ | result <;> rfl

theorem flowNode_map (node : Node) (shape : node.value = .map fields) (binding : Binding)
    (overridable : Bool) : flowNode engine deeper (fuel + 1) node binding overridable =
      flowMap engine deeper (flowNode engine deeper fuel) node fields binding overridable := by
  rw [flowNode, shape]

theorem controlYields_iff (carries : Carries engine fields id) {world' : World}
    {outcome : Except Unresolved (Option Node)} :
    ControlYields engine deeper fuel node fields binding world outcome world' ↔
      (dispatchControl deeper (flowComplete engine (flowNode engine deeper fuel)) id.name
        id.standard node fields binding).run world = some (outcome, world') := by
  unfold ControlYields
  rw [runControl_of_carries carries]
  constructor
  · rintro ⟨_, same, yields⟩
    cases same
    exact yields
  · exact fun yields => ⟨_, rfl, yields⟩

theorem flowNode_of_overridden {stub : Node}
    (overrides : overrideOf engine node binding overridable = some stub) :
    flowNode engine deeper (fuel + 1) (node.withValue (.map fields)) binding overridable world =
      some (some stub, world) := by
  rw [flowNode_map _ rfl]
  have sameOverride : (if overridable then mapOverride? engine.defaultKey
      (node.withValue (.map fields)) binding else none) = some stub := overrides
  unfold flowMap
  rw [sameOverride]
  rfl

/-- A map flows to what the outcome of its control comes to. -/
theorem flowNode_of_carries (carries : Carries engine fields id)
    (uncaptured : IsUncaptured fields)
    (free : overrideOf engine node binding overridable = none) :
    flowNode engine deeper (fuel + 1) (node.withValue (.map fields)) binding overridable world =
      ((dispatchControl deeper (flowComplete engine (flowNode engine deeper fuel)) id.name
        id.standard (node.withValue (.map fields)) fields binding).run world).bind fun result =>
          flowOutcome (flowNode engine deeper fuel) (node.withValue (.map fields)) binding
            overridable result.1 result.2 := by
  have sameOverride :
      overrideOf engine (node.withValue (.map fields)) binding overridable = none := free
  rw [flowNode_map _ rfl, flowMap_of_carries carries uncaptured sameOverride]
  rfl

/-- How two maps that differ in fields flow: as if they did not, but where a control fails. -/
structure FlowsAlike (engine : Engine) (deeper : Deeper) (fuel : Nat) (node : Node)
    (fields fields' : Fields Node) (binding : Binding) (overridable : Bool) (world : World) :
    Prop where
  /-- The controls come to the same outcome. -/
  yields_iff : ∀ outcome world',
    ControlYields engine deeper fuel (node.withValue (.map fields')) fields' binding world outcome
        world' ↔
      ControlYields engine deeper fuel (node.withValue (.map fields)) fields binding world outcome
        world'
  /-- The maps flow to the same result unless the control fails or is still pending. -/
  flows_eq : (∀ u world', ¬ControlYields engine deeper fuel (node.withValue (.map fields)) fields
      binding world (.error u) world') →
    flowNode engine deeper (fuel + 1) (node.withValue (.map fields')) binding overridable world =
      flowNode engine deeper (fuel + 1) (node.withValue (.map fields)) binding overridable world
  /-- A stub overrides both in the same way. -/
  overridden_eq : ∀ stub, overrideOf engine node binding overridable = some stub →
    ∀ all ∈ [fields, fields'],
      flowNode engine deeper (fuel + 1) (node.withValue (.map all)) binding overridable world =
        some (some stub, world)
  /-- Otherwise both maps stay as written, with the same diagnostic. -/
  stays_eq : ∀ u world', ControlYields engine deeper fuel (node.withValue (.map fields)) fields
      binding world (.error u) world' → overrideOf engine node binding overridable = none →
    ∀ all ∈ [fields, fields'],
      flowNode engine deeper (fuel + 1) (node.withValue (.map all)) binding overridable world =
        some (some ((node.withValue (.map all)).withDiagnostic u), world')

/-- Branches that the value of a choice does not pick have no influence on what the choice yields,
and none on what the map flows to, unless the choice fails: then the map stays as it is written. -/
theorem flowNode_unpicked {value : Node} {world' : World} (carries : Carries engine fields id)
    (uncaptured : IsUncaptured fields)
    (resolves : (flowComplete engine (flowNode engine deeper fuel)
      ((Fields.find? fields (controlKey id.name)).getD (.plain .nil node.source))
        (binding.child (controlKey id.name))).run world = some (.ok value, world'))
    (unpicked : Unpicked deeper (flowComplete engine (flowNode engine deeper fuel)) value binding
      world' id fields fields') (overridable : Bool) :
    FlowsAlike engine deeper fuel node fields fields' binding overridable world := by
  have carries' : Carries engine fields' id := carries.of_keys unpicked.keys_eq
  have uncaptured' : IsUncaptured fields' := by
    unfold IsUncaptured at uncaptured ⊢
    rw [unpicked.find?_directive]
    exact uncaptured
  have dispatched := unpicked.dispatchControl_eq (node.withValue (.map fields))
    (node.withValue (.map fields')) rfl resolves
  have each : ∀ all ∈ [fields, fields'], Carries engine all id ∧ IsUncaptured all := by
    simp only [List.forall_mem_cons, List.not_mem_nil, false_implies, implies_true, and_true]
    exact ⟨⟨carries, uncaptured⟩, carries', uncaptured'⟩
  refine ⟨?yields, ?flows, fun stub overrides all _ => flowNode_of_overridden overrides, ?stays⟩
  case yields =>
    intro outcome last
    rw [controlYields_iff carries, controlYields_iff carries', dispatched]
  case flows =>
    intro succeeds
    cases overrides : overrideOf engine node binding overridable with
    | some stub => rw [flowNode_of_overridden overrides, flowNode_of_overridden overrides]
    | none =>
      rw [flowNode_of_carries carries uncaptured overrides,
        flowNode_of_carries carries' uncaptured' overrides, dispatched]
      cases yields : (dispatchControl deeper (flowComplete engine (flowNode engine deeper fuel))
        id.name id.standard (node.withValue (.map fields)) fields binding).run world with
      | none => rfl
      | some result =>
        obtain ⟨outcome, last⟩ := result
        rcases outcome with u | _ | picked
        · exact absurd ((controlYields_iff carries).mpr yields) (succeeds u last)
        · rfl
        · rfl
  case stays =>
    intro u last fails free all member
    have failsToo : (dispatchControl deeper (flowComplete engine (flowNode engine deeper fuel))
        id.name id.standard (node.withValue (.map all)) all binding).run world =
          some (.error u, last) := by
      have fails := (controlYields_iff carries).mp fails
      rcases List.mem_cons.mp member with rfl | member
      · exact fails
      · obtain rfl := List.mem_singleton.mp member
        rw [dispatched, fails]
    obtain ⟨carries, uncaptured⟩ := each all member
    rw [flowNode_of_carries carries uncaptured free, failsToo]
    rfl

end

/-- A truth value without annotations. -/
def flagNode (flag : Bool) : Node := .plain (.bool flag) "t"

/-- An entry of a list of cases. -/
def flagEntry (flag : Bool) (value : Node) : Node :=
  .plain (.map [("case", flagNode flag), ("value", value)]) "t"

/-- A switch on true with two cases, something behind them and a default. -/
def flagSwitch (first behind default : Node) : Fields Node := [
  ("<<cases", .plain (.list [flagEntry false first, flagEntry true (.plain (.int 2) "t"), behind])
    "t"),
  ("<<default", default),
  ("<<switch", flagNode true)]

theorem run_entryMatches_flagEntry (flag : Bool) (value : Node) (index : Nat) :
    (entryMatches (Engine.standard.below 0) (flowComplete Engine.standard
      (flowNode Engine.standard (Engine.standard.below 0) 7)) (flagNode true) emptyPlace index
        (flagEntry flag value)).run {} = some (.ok flag, {}) := by
  have equal : (Value.bool flag).looseEq (.bool true) = flag := by
    simp [Value.looseEq, Value.same]
  change some (Except.ok ((Value.bool flag).looseEq (.bool true)), ({} : World)) = _
  rw [equal]

/-- A switch whose other branches are plain. -/
def plainSwitch : Fields Node := flagSwitch (flagNode false) (flagNode false) (flagNode false)

/-- The same switch with a string that no expression can be read from, an expression that fails and
another control as the branches that are not picked. -/
def brokenSwitch : Fields Node :=
  flagSwitch (.plain (.string "(( ) ))") "t") (.plain (.string "(( 1 / 0 ))") "t")
    (.plain (.map [("<<if", flagNode true)]) "t")

/-- What the control of the plain switch sees. -/
def plainContext : ControlContext where
  name := ControlId.switch.name
  value := flagNode true
  node := .plain (.map plainSwitch) "t"
  fields := []
  options := Fields.ofList (givenOptions plainSwitch ControlId.switch.options)
  binding := emptyPlace

theorem run_dispatchControl_plainSwitch :
    (dispatchControl (Engine.standard.below 0) (flowComplete Engine.standard
      (flowNode Engine.standard (Engine.standard.below 0) 7)) ControlId.switch.name
        ControlId.switch.standard (.plain (.map plainSwitch) "t") plainSwitch emptyPlace).run {} =
      some (.ok (some (.plain (.int 2) "t")), {}) := by
  have sees : plainContext.Sees (flagNode true) emptyPlace := ⟨rfl, rfl⟩
  have entered : (dispatchControl (Engine.standard.below 0) (flowComplete Engine.standard
      (flowNode Engine.standard (Engine.standard.below 0) 7)) ControlId.switch.name
        ControlId.switch.standard (.plain (.map plainSwitch) "t") plainSwitch emptyPlace).run {} =
      (selectCase (Engine.standard.below 0) (flowComplete Engine.standard
        (flowNode Engine.standard (Engine.standard.below 0) 7)) plainContext
          (emptyPlace.child (controlKey "cases")) 0
          [flagEntry false (flagNode false), flagEntry true (.plain (.int 2) "t"),
            flagNode false] >>= fun selected =>
        choose plainContext selected (flagNode true).value.display).run {} := rfl
  have later : (selectCase (Engine.standard.below 0) (flowComplete Engine.standard
        (flowNode Engine.standard (Engine.standard.below 0) 7)) plainContext
          (emptyPlace.child (controlKey "cases")) 1
          [flagEntry true (.plain (.int 2) "t"), flagNode false]).run {} =
      some (.ok (some (.plain (.int 2) "t")), {}) := by
    rw [selectCase_cons sees, Eval.bind_of_ok (run_entryMatches_flagEntry true _ 1)]
    rfl
  have picks : (selectCase (Engine.standard.below 0) (flowComplete Engine.standard
        (flowNode Engine.standard (Engine.standard.below 0) 7)) plainContext
          (emptyPlace.child (controlKey "cases")) 0
          [flagEntry false (flagNode false), flagEntry true (.plain (.int 2) "t"),
            flagNode false]).run {} =
      some (.ok (some (.plain (.int 2) "t")), {}) := by
    rw [selectCase_cons sees, Eval.bind_of_ok (run_entryMatches_flagEntry false _ 0)]
    exact later
  rw [entered, Eval.bind_of_ok picks]
  rfl

/-- Both switches flow to the value of the case that matches. -/
theorem flowNode_brokenSwitch :
    FlowsAlike Engine.standard (Engine.standard.below 0) 7 (.plain .nil "t") plainSwitch
        brokenSwitch emptyPlace true {} ∧
      flowNode Engine.standard (Engine.standard.below 0) 8 (.plain (.map brokenSwitch) "t")
          emptyPlace true {} =
        flowNode Engine.standard (Engine.standard.below 0) 8 (.plain (.map plainSwitch) "t")
          emptyPlace true {} := by
  have carries : Carries Engine.standard plainSwitch .switch := rfl
  have uncaptured : IsUncaptured plainSwitch := by
    intro e read
    rw [show Fields.find? plainSwitch directiveKey = none from rfl] at read
    cases read
  have unpicked : Unpicked (Engine.standard.below 0) (flowComplete Engine.standard
      (flowNode Engine.standard (Engine.standard.below 0) 7)) (flagNode true) emptyPlace {} .switch
      plainSwitch brokenSwitch := by
    refine .cases rfl rfl (.entries (.passed ⟨rfl, rfl⟩ (run_entryMatches_flagEntry false _ 0)
      (.picked (run_entryMatches_flagEntry true _ 1)))) (fun undecided => ?_) ?_
    · cases undecided
    · exact ((AlikeBut.refl _ _).cons (by decide) _ _).cons (by decide) _ _
  have alike : FlowsAlike Engine.standard (Engine.standard.below 0) 7 (.plain .nil "t") plainSwitch
      brokenSwitch emptyPlace true {} := flowNode_unpicked carries uncaptured rfl unpicked true
  refine ⟨alike, alike.flows_eq fun u last fails => ?_⟩
  have failed := (controlYields_iff carries).mp fails
  cases failed.symm.trans run_dispatchControl_plainSwitch

/-- A switch without a default and with one case. -/
def failingSwitch (case : Int64) : Fields Node := [
  ("<<cases", .plain (.map [("a", .plain (.int case) "t")]) "t"),
  ("<<switch", flagNode true)]

theorem flowNode_of_failingSwitch (case : Int64) :
    flowNode Engine.standard (Engine.standard.below 0) 8
        (.plain (.map (failingSwitch case)) "t") emptyPlace true {} =
      some (some ((Node.plain (.map (failingSwitch case)) "t").withDiagnostic
        (.ofFailure (.custom ("no case for '" ++ "true" ++ "'")))), {}) := by
  have first : Carries Engine.standard (failingSwitch 0) .switch := rfl
  have carries : Carries Engine.standard (failingSwitch case) .switch := first.of_keys rfl
  have uncaptured : IsUncaptured (failingSwitch case) := by
    intro e read
    rw [show Fields.find? (failingSwitch case) directiveKey = none from rfl] at read
    cases read
  show flowNode Engine.standard (Engine.standard.below 0) 8
    ((Node.plain .nil "t").withValue (.map (failingSwitch case))) emptyPlace true {} = _
  exact flowNode_of_carries carries uncaptured rfl

/-- No case matches, so the map stays as it is written, with the case that is not picked. -/
theorem flowNode_failingSwitch :
    Unpicked (Engine.standard.below 0) (flowComplete Engine.standard
        (flowNode Engine.standard (Engine.standard.below 0) 7)) (flagNode true) emptyPlace {}
        .switch (failingSwitch 5) (failingSwitch 6) ∧
      flowNode Engine.standard (Engine.standard.below 0) 8 (.plain (.map (failingSwitch 6)) "t")
          emptyPlace true {} ≠
        flowNode Engine.standard (Engine.standard.below 0) 8 (.plain (.map (failingSwitch 5)) "t")
          emptyPlace true {} := by
  constructor
  · refine .cases rfl rfl (.keys rfl fun key isKey => ?_) (fun _ => rfl) ?_
    · obtain rfl : "true" = key := Option.some.inj isKey
      rfl
    · exact (AlikeBut.refl _ _).cons (by decide) _ _
  · intro same
    rw [flowNode_of_failingSwitch, flowNode_of_failingSwitch] at same
    cases same

end Cascade
