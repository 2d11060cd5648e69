import Cascade.Proofs.NestedCascade
import Cascade.Proofs.StagedPasses

/-!
# Documents with a template

One field of the document is a map that the first pass captures as a template. No reference leads
to it, so that it may be told apart from the rest of the document, which consists of maps, simple
values and expressions. The passes lead from stage to stage of the rest.

## Main definitions

* `Expr.substitutes`: the expression that asks for the template.
* `TemplateDocument`: a document with a template; `TemplateDocument.tree`: its stages.

## Main statements

* `TemplateDocument.approximatesApart`: stages of a document approximate those of the document with
  replacements, apart from the template.
* `TemplateDocument.pass_tree`: a pass leads to a stage with the template captured.
-/

namespace Cascade

/-! ### Expressions around a template -/

/-- The expression substitutes the template of a name. -/
def Expr.substitutes (name : String) : Expr → Bool
  | .substitution (.reference r) => r.simpleName? == some name
  | _ => false

/-- The expression substitutes the template of a name, or does not mention it. -/
def Expr.mayUse (name : String) (e : Expr) : Bool := e.avoids name || e.substitutes name

section

variable {name : String} {e : Expr}

theorem Expr.staticInfo_of_avoids (avoids : e.avoids name = true) : e.staticInfo = {} :=
  staticInfo_of_isPlainPart (isPlainPart_of_avoids avoids)

theorem Expr.eq_of_substitutes (substitutes : e.substitutes name = true) :
    e = .substitution (.reference (.relative [name])) := by
  unfold Expr.substitutes at substitutes
  split at substitutes
  · next r =>
    have simple : r.simpleName? = some name := by simpa using substitutes
    unfold Reference.simpleName? at simple
    split at simple
    · cases simple
      rfl
    · cases simple
  · cases substitutes

theorem Expr.staticInfo_of_mayUse (uses : e.mayUse name = true) : e.staticInfo = {} := by
  rcases (Bool.or_eq_true _ _).mp uses with avoids | substitutes
  · exact staticInfo_of_avoids avoids
  · rw [eq_of_substitutes substitutes]
    rfl

/-- What substitutes a template mentions it. -/
theorem Expr.not_substitutes_of_avoids (avoids : e.avoids name = true) :
    e.substitutes name = false := by
  rw [← Bool.not_eq_true]
  intro substitutes
  rw [eq_of_substitutes substitutes] at avoids
  cases (Expr.forall_walk_iff.mp (isPlainPart_of_avoids avoids)).1

end

/-! ### The documents -/

theorem Fields.erase_insert {α : Type} {key : String} {value : α} {fields : Fields α}
    (absent : ∀ field ∈ fields, field.1 ≠ key) :
    Fields.erase key (Fields.insert key value fields) = fields := by
  induction fields with
  | nil => rw [insert, erase, if_pos rfl]
  | cons field rest ih =>
    obtain ⟨name, old⟩ := field
    obtain ⟨first, others⟩ := List.forall_mem_cons.mp absent
    rw [insert]
    split
    · rw [erase, if_pos rfl]
    · rw [if_neg (Ne.symm first), erase, if_neg first, ih others]

/-- A document one of whose fields is a template, given by its directive and its body. The body does
not mention the template, and the expressions elsewhere are of a kind. -/
structure TemplateDocument (name : String) (kind : Expr → Prop) where
  source : String
  directive : Node
  body : Fields Node
  fields : Fields Node
  marks : directive.expr? = some (.marked [.flag .template] none)
  clear : directive.annotations = {}
  inside : Node.MadeOf (fun e => e.avoids name = true) ⟨.map body, {}, source⟩
  distinct : (Fields.keys fields).Nodup
  plain : ∀ field ∈ fields, controlSuffix? field.1 = none
  template : Fields.find? fields name =
    some ⟨.map (Fields.insert directiveKey directive body), {}, source⟩
  others : ∀ field ∈ fields, field.1 ≠ name → field.2.MadeOf kind

namespace TemplateDocument

variable {name : String} {kind : Expr → Prop} (d : TemplateDocument name kind)

/-- The document as it is written. -/
def document : Node := ⟨.map d.fields, {}, d.source⟩

/-- The body as a map of its own. -/
def bodyNode : Node := ⟨.map d.body, {}, d.source⟩

/-- The template as it is written. -/
def written : Node := ⟨.map (Fields.insert directiveKey d.directive d.body), {}, d.source⟩

/-- The template once it is captured. -/
def captured : Node := ⟨.template d.bodyNode, {}, d.source⟩

/-- The document with a node in place of the template, at a stage of the rest. -/
def tree (slot : Node) (received : Option Outcomes) : Node :=
  ⟨.map (Fields.pick (Fields.keys d.fields) fun key =>
    if key = name then some slot
    else (Fields.find? d.fields key).bind fun child => child.stage received [key]), {}, d.source⟩

/-- An expression stands at a place outside the template. -/
def HasExpr (defaultKey : String) (place : List String) (e : Expr) : Prop :=
  ∃ key rest child, place = key :: rest ∧ key ≠ name ∧ Fields.find? d.fields key = some child ∧
    child.HasExpr defaultKey rest e

/-- The values that the expressions of the document have received are simple. -/
def ReceivesSimple (defaultKey : String) (received : Option Outcomes) : Prop :=
  ∀ place e r, d.HasExpr defaultKey place e → Delivers received e place r → r.IsSimple

/-! ### The template -/

theorem ne_directiveKey_body : ∀ field ∈ d.body, field.1 ≠ directiveKey :=
  fun _ member => ne_directiveKey (d.inside.field member).1

theorem erase_directive :
    Fields.erase directiveKey (Fields.insert directiveKey d.directive d.body) = d.body :=
  Fields.erase_insert d.ne_directiveKey_body

theorem find?_directive :
    Fields.find? (Fields.insert directiveKey d.directive d.body) directiveKey = some d.directive := by
  rw [Fields.find?_insert, if_pos rfl]

/-- A pass captures the template. -/
theorem flowNode_written {engine : Engine} {deeper : Deeper} {s : Setting} {root : Node}
    {place : List String} {fuel : Nat} {overridable : Bool} (noStubs : s.stubs = []) :
    flowNode engine deeper (fuel + 1) d.written (s.bindingAt root place) overridable =
      pure (some d.captured) := by
  have found : ((Fields.find? (Fields.insert directiveKey d.directive d.body) directiveKey).bind
      fun written => written.expr?.map fun e => (written, e)) =
        some (d.directive, .marked [.flag .template] none) := by
    rw [d.find?_directive, Option.bind_some, d.marks, Option.map_some]
  have noOverride : mapOverride? engine.defaultKey d.written (s.bindingAt root place) = none :=
    mapOverride?_of_noStubs (stubs_bindingAt.trans noStubs)
  rw [written] at noOverride ⊢
  rw [flowNode]
  dsimp only
  unfold flowMap
  simp only [noOverride, ite_self, found]
  change pure (some (templateNode _ _ _)) = _
  rw [templateNode, d.erase_directive]
  rfl

theorem flowNode_captured {engine : Engine} {deeper : Deeper} {s : Setting} {root : Node}
    {place : List String} {fuel : Nat} {overridable : Bool} (noStubs : s.stubs = []) :
    flowNode engine deeper (fuel + 1) d.captured (s.bindingAt root place) overridable =
      pure (some d.captured) := by
  have noOverride : stubOverride? engine.defaultKey d.captured (s.bindingAt root place) = none :=
    stubOverride?_of_noStubs (stubs_bindingAt.trans noStubs)
  rw [captured] at noOverride ⊢
  rw [flowNode, flowLeaf, noOverride, ite_self]
  rfl

/-- The slot of the template holds it as it is written, or captured. -/
def IsSlot (slot : Node) : Prop := slot = d.written ∨ slot = d.captured

theorem findTag?_slot {slot : Node} (isSlot : d.IsSlot slot) (tag : String) :
    slot.findTag? tag = none := by
  rcases isSlot with rfl | rfl
  · rw [written, Node.findTag?_of_untagged rfl, Value.findTag?, findTagFields?_eq_none]
    intro field member
    rcases Fields.mem_insert member with rfl | known
    · exact Node.findTag?_of_expr? d.marks (congrArg Annotations.tag d.clear)
    · exact (d.inside.field known).2.findTag? tag
  · rw [captured, Node.findTag?_of_untagged rfl, Value.findTag?]
    all_goals simp

/-- A template that is captured has no expressions. -/
theorem exprCount_slot {slot : Node} (isSlot : d.IsSlot slot) :
    d.captured.exprCount = 0 ∧ (slot.exprCount = 0 → slot = d.captured) := by
  refine ⟨?_, fun none => ?_⟩
  · rw [captured, Node.exprCount_of_ne_map (by simp)]
    rfl
  · rcases isSlot with rfl | rfl
    · have member : (directiveKey, d.directive) ∈ Fields.insert directiveKey d.directive d.body :=
        Fields.mem_of_find? d.find?_directive
      rw [written, Node.exprCount_map, List.sum_eq_zero_iff_forall_eq_nat] at none
      have gone := none _ (List.mem_map_of_mem member)
      rw [Node.exprCount_of_expr? d.marks] at gone
      cases gone
    · rfl

/-! ### Stages of the rest -/

theorem tree_written : d.tree d.written none = d.document := by
  rw [tree, document, Fields.pick_congr fun key member => ?_, Fields.pick_find? d.distinct]
  split
  · next same =>
    rw [same, d.template]
    rfl
  · exact Option.bind_fun_some _

section

variable {defaultKey : String} {place : List String} {e : Expr} {slot slot' : Node}
  {received later : Option Outcomes}

theorem head?_ne (stands : d.HasExpr defaultKey place e) : place.head? ≠ some name := by
  obtain ⟨key, rest, child, rfl, differs, -⟩ := stands
  simpa using differs

/-- The expressions outside the template are of the kind. -/
theorem ofKind (stands : d.HasExpr defaultKey place e) : kind e := by
  obtain ⟨key, rest, child, -, differs, known, below⟩ := stands
  exact (d.others _ (Fields.mem_of_find? known) differs).ofKind below

theorem find?_tree {key : String} (differs : key ≠ name) :
    Fields.find? (Fields.pick (Fields.keys d.fields) fun key =>
      if key = name then some slot
      else (Fields.find? d.fields key).bind fun child => child.stage received [key]) key =
      (Fields.find? d.fields key).bind fun child => child.stage received [key] := by
  rw [Fields.find?_pick, if_neg differs]
  split
  · rfl
  · next missing =>
    have absent : Fields.find? d.fields key = none := Fields.find?_eq_none_iff.mpr
      fun field member same => missing (same ▸ List.mem_map_of_mem member)
    rw [absent, Option.bind_none]

theorem ReceivesSimple.field {d : TemplateDocument name kind} {key : String} {child : Node}
    (simple : d.ReceivesSimple defaultKey received) (differs : key ≠ name)
    (known : Fields.find? d.fields key = some child) :
    child.ReceivesSimple defaultKey received [key] :=
  fun path e r stands => simple (key :: path) e r ⟨key, path, child, rfl, differs, known, stands⟩

/-- An expression that has not received a value is still there. -/
theorem hasExpr_tree (unmarked : ∀ e, kind e → e.staticInfo = {})
    (simple : d.ReceivesSimple defaultKey received) (stands : d.HasExpr defaultKey place e)
    (waits : ∀ r, ¬Delivers received e place r) :
    (d.tree slot received).HasExpr defaultKey place e := by
  obtain ⟨key, rest, child, rfl, differs, known, below⟩ := stands
  rw [tree, Node.hasExpr_cons, d.find?_tree differs, known, Option.bind_some]
  have made := d.others _ (Fields.mem_of_find? known) differs
  cases becomes : child.stage received [key] with
  | some next =>
    exact ⟨next, rfl, (made.hasExpr_stage unmarked (simple.field differs known) becomes).mpr
      ⟨below, waits⟩⟩
  | none =>
    obtain ⟨e', r, written, delivers⟩ := made.exists_of_stage_eq_none becomes
    obtain ⟨rfl, rfl⟩ := (Node.hasExpr_of_expr? written).mp below
    exact absurd delivers (waits r)

/-- Stages approximate those of a document with replacements at which more has been received. -/
theorem approximatesApart {kind' : Expr → Prop} {replaces : Expr → Bool}
    (unmarked : ∀ e, kind e → e.staticInfo = {}) (d' : TemplateDocument name kind')
    (source : d'.source = d.source) (inlined : d'.fields = fieldsInlined replaces d.body d.fields)
    (fits : ∀ place e, d.HasExpr defaultKey place e →
      Fits replaces d.body received later e place place) :
    ApproximatesApart name (d.tree slot received) (d'.tree slot' later) := by
  rw [tree, tree, source, inlined, keys_fieldsInlined]
  refine .intro fun key member differs => ?_
  rw [if_neg differs, if_neg differs, find?_fieldsInlined]
  cases known : Fields.find? d.fields key with
  | none => exact .absent
  | some child =>
    exact (d.others _ (Fields.mem_of_find? known) differs).approximates unmarked
      fun path e stands => fits (key :: path) e ⟨key, path, child, rfl, differs, known, stands⟩

theorem findTag?_tree (unmarked : ∀ e, kind e → e.staticInfo = {})
    (simple : d.ReceivesSimple defaultKey received) (isSlot : d.IsSlot slot) (tag : String) :
    (d.tree slot received).findTag? tag = none := by
  rw [tree, Node.findTag?_of_untagged rfl, Value.findTag?, findTagFields?_eq_none]
  intro field member
  obtain ⟨-, picked⟩ := Fields.mem_pick.mp member
  split at picked
  · cases picked
    exact d.findTag?_slot isSlot tag
  · next differs =>
    obtain ⟨child, known, stands⟩ := Option.bind_eq_some_iff.mp picked
    have made := d.others _ (Fields.mem_of_find? known) differs
    exact (made.stage unmarked (simple.field differs known) stands).findTag? tag

end

/-! ### Passes -/

/-- A pass leads to a stage with the template captured. -/
theorem pass_tree {engine : Engine} {deeper : Deeper} {s : Setting} {slot : Node}
    {received : Option Outcomes} (alone : s.IsAlone) (unmarked : ∀ e, kind e → e.staticInfo = {})
    (isSlot : d.IsSlot slot) (simple : d.ReceivesSimple engine.defaultKey received)
    (effectless : ∀ place e, d.HasExpr engine.defaultKey place e →
      (∀ r, ¬Delivers received e place r) →
      outcomeOf engine deeper e (s.bindingAt (d.tree slot received) place) =
        pure (s.outcomes engine deeper (d.tree slot received) e place)) :
    pass engine deeper s (d.tree slot received) = pure (d.tree d.captured
      (some ((s.outcomes engine deeper (d.tree slot received)).keeping received))) := by
  let outcomes := s.outcomes engine deeper (d.tree slot received)
  let become (key : String) (child : Node) : Option Node :=
    if key = name then some d.captured else child.advance outcomes [key]
  have flowed (fuel : Nat) (overridable : Bool) (enough : (d.tree slot received).height ≤ fuel) :
      flowNode engine deeper (fuel + 1) (d.tree slot received)
        (s.bindingAt (d.tree slot received) []) overridable =
      pure (some (d.tree d.captured (some (outcomes.keeping received)))) := by
    rw [tree, Node.height, Value.height] at enough
    conv_lhs => rw [tree]
    rw [flowNode_of_plainKeys alone.noStubs alone.noState become]
    · rw [Fields.filterMap_pick, tree, Fields.pick_congr fun key member => ?_]
      dsimp only [become]
      by_cases same : key = name
      · rw [if_pos same, if_pos same, Option.bind_some, if_pos same]
      · rw [if_neg same, if_neg same, Option.bind_assoc]
        refine Option.bind_congr fun child known => ?_
        have made := d.others _ (Fields.mem_of_find? known) same
        simp only [if_neg same]
        exact made.stage_advance unmarked (simple.field same known)
    · intro field member
      obtain ⟨before, known, same⟩ := List.mem_map.mp (Fields.mem_pick.mp member).1
      rw [← same]
      exact d.plain before known
    · intro field member overridable
      have lower := height_le_fieldsHeight member
      obtain ⟨fuel, rfl⟩ : ∃ n, fuel = n + 1 := ⟨fuel - 1, by omega⟩
      have picked := (Fields.mem_pick.mp member).2
      dsimp only [become]
      by_cases same : field.1 = name
      · rw [if_pos same] at picked ⊢
        rw [← Option.some.inj picked]
        rcases isSlot with slot | slot
        · conv_lhs => rw [slot]
          exact d.flowNode_written alone.noStubs
        · conv_lhs => rw [slot]
          exact d.flowNode_captured alone.noStubs
      · rw [if_neg same] at picked ⊢
        obtain ⟨child, known, stands⟩ := Option.bind_eq_some_iff.mp picked
        have made := d.others _ (Fields.mem_of_find? known) same
        have simple := simple.field same known
        have below : ∀ path e, field.2.HasExpr engine.defaultKey path e →
            outcomeOf engine deeper e (s.bindingAt (d.tree slot received) (field.1 :: path)) =
              pure (outcomes e (field.1 :: path)) := by
          intro path e here
          obtain ⟨before, waits⟩ := (made.hasExpr_stage unmarked simple stands).mp here
          exact effectless _ e ⟨field.1, path, child, rfl, same, known, before⟩ waits
        exact flowNode_of_madeOf alone.noStubs alone.noState (made.stage unmarked simple stands)
          unmarked below (by omega)
  rw [pass]
  change flowNode engine deeper _ (d.tree slot received) (s.bindingAt (d.tree slot received) []) _
    >>= _ = _
  rw [Nat.add_right_comm, flowed _ _ (by omega), pure_bind]
  rfl

end TemplateDocument

end Cascade
