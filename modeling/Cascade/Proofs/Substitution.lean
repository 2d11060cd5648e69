import Cascade.Proofs.TemplateDocuments

/-!
# Substituting a template

A field that substitutes a template receives what the body of the template comes to as a document of
its own, seen from the place of the field. The passes over that document are made within one pass
over the document around it, and they yield something only if every field of the body has its value.
If the body is written in place of the field instead, its fields are resolved one by one by the
passes over the whole document.

Whatever the document with the substitution resolves, the document with the body in place resolves
too, to the same values: if the passes over the latter have come to a tree at which nothing is
delivered any more, then every stage of the former approximates that tree, and so does every stage
of the document that the substitution makes.

## Main statements

* `TemplateDocument.flowNested_fits`: the value of a substitution is what the body in place has
  become.
* `TemplateDocument.StageFits.pass`: a pass over the document with the substitution leads to a stage
  that fits the document with the body in place.
-/

namespace Cascade

open Eval

/-! ### Outcomes at a place and at an approximated one -/

theorem throw_yields_nothing {P : Resolved → Prop} (u : Unresolved) :
    ∃ o, (throw u : Eval Resolved) = ofOutcome o ∧ ∀ r, o = .ok r → P r := by
  refine ⟨.error u, rfl, ?_⟩
  rintro r ⟨⟩

/-- What avoids the hidden name is evaluated without effect. If it has a value, the value is simple,
and it has the same one where an approximated scope is seen. -/
theorem outcomes_inform {engine : Engine} {deeper : Deeper} (deeper' : Deeper) {s s' : Setting}
    {root root' : Node} {place place' : List String} {hidden : String} {e : Expr} {later : Scope}
    (source : root'.source = root.source)
    (approximates : (s.scopeAt root place).Approximates engine.defaultKey hidden
      (s'.scopeAt root' place'))
    (onward : (s'.scopeAt root' place').Approximates engine.defaultKey hidden later)
    (avoids : e.avoids hidden = true) :
    outcomeOf engine deeper e (s.bindingAt root place) =
        pure (s.outcomes engine deeper root e place) ∧
      ∀ r, s.outcomes engine deeper root e place = .ok r →
        r.IsSimple ∧ s'.outcomes engine deeper' root' e place' = .ok r := by
  have related : Related (Advances Unresolved.verdict True True) Resolved.IsSimple
      (evaluate engine deeper e (s.bindingAt root place))
      (evaluate engine deeper' e (s'.bindingAt root' place')) :=
    evaluate_informs source approximates onward avoids
  obtain ⟨o, o', here, there, informs, known, -⟩ := related
  rw [outcomes_eq here, outcomes_eq there]
  refine ⟨by rw [outcomeOf, here]; rfl, ?_⟩
  rintro r rfl
  exact ⟨known r rfl, Informs.eq_ok informs⟩

/-! ### Documents with replacements -/

namespace TemplateDocument

variable {name : String} {kind kind' : Expr → Prop}

/-- The second document is the first one with the body of the template in place of expressions. -/
structure IsInlined (replaces : Expr → Bool) (d : TemplateDocument name kind)
    (d' : TemplateDocument name kind') : Prop where
  source : d'.source = d.source
  fields : d'.fields = fieldsInlined replaces d.body d.fields

theorem IsInlined.refl (d : TemplateDocument name kind) : IsInlined (fun _ => false) d d :=
  ⟨rfl, fieldsInlined_nothing.symm⟩

section

variable {d : TemplateDocument name kind} {d' : TemplateDocument name kind'} {replaces : Expr → Bool}
  {defaultKey : String} {place : List String} {e : Expr} {slot slot' : Node}
  {received later : Option Outcomes} {s : Setting}

/-- The maps around an expression are there at every stage. -/
theorem surrounds (unmarked : ∀ e, kind e → e.staticInfo = {})
    (stands : d.HasExpr defaultKey place e) :
    (d.tree slot received).Surrounds defaultKey place := by
  have nothing {e : Expr} {place : List String} {r : Resolved} : ¬Delivers none e place r := by
    rintro ⟨_, ⟨⟩, -⟩
  have first : (d.tree slot none).HasExpr defaultKey place e :=
    d.hasExpr_tree unmarked (fun _ _ _ _ delivers => absurd delivers nothing) stands
      fun _ => nothing
  have later : ApproximatesApart name (d.tree slot none) (d.tree slot received) :=
    d.approximatesApart unmarked d rfl fieldsInlined_nothing.symm
      fun place e (_ : d.HasExpr defaultKey place e) _ delivers => absurd delivers nothing
  exact later.surrounds (d.head?_ne stands) first.surrounds

/-- What is seen at a stage approximates what is seen at a stage of the document with replacements at
which more has been received. -/
theorem IsInlined.scopeAt (inlined : IsInlined replaces d d') (received later : Option Outcomes)
    (alone : s.IsAlone)
    (unmarked : ∀ e, kind e → e.staticInfo = {}) (unmarked' : ∀ e, kind' e → e.staticInfo = {})
    (isSlot : d.IsSlot slot) (isSlot' : d'.IsSlot slot')
    (simple' : d'.ReceivesSimple defaultKey later)
    (fits : ∀ place e, d.HasExpr defaultKey place e →
      Fits replaces d.body received later e place place)
    (stands : d.HasExpr defaultKey place e) :
    (s.scopeAt (d.tree slot received) place).Approximates defaultKey name
      (s.scopeAt (d'.tree slot' later) place) := by
  have simple : d.ReceivesSimple defaultKey received := fun place e r stands delivers =>
    (fits place e stands r delivers).1
  exact (d.approximatesApart unmarked d' inlined.source inlined.fields fits).scopeAt alone
    (d.findTag?_tree unmarked simple isSlot) (d'.findTag?_tree unmarked' simple' isSlot')
    (d.head?_ne stands) (surrounds unmarked stands)

end

/-! ### Documents without substitutions -/

section

variable {d : TemplateDocument name fun e => e.avoids name = true} {engine : Engine}
  {deeper : Deeper} {s : Setting} {slot slot' : Node} {received later : Option Outcomes}

/-- What has been received is simple, and it would be received again. -/
def IsSteady (engine : Engine) (deeper : Deeper) (s : Setting)
    (d : TemplateDocument name fun e => e.avoids name = true) (slot : Node)
    (received : Option Outcomes) : Prop :=
  ∀ place e r, d.HasExpr engine.defaultKey place e → Delivers received e place r →
    r.IsSimple ∧ s.outcomes engine deeper (d.tree slot received) e place = .ok r

theorem IsSteady.simple (steady : IsSteady engine deeper s d slot received) :
    d.ReceivesSimple engine.defaultKey received :=
  fun place e r stands delivers => (steady place e r stands delivers).1

/-- From a stage to one at which more has been received, values are final. -/
theorem outcomes_later (deeper : Deeper) (alone : s.IsAlone) (isSlot : d.IsSlot slot) (isSlot' : d.IsSlot slot')
    (simple : d.ReceivesSimple engine.defaultKey received)
    (simple' : d.ReceivesSimple engine.defaultKey later)
    (more : ∀ place e r, d.HasExpr engine.defaultKey place e → Delivers received e place r →
      Delivers later e place r) {place : List String} {e : Expr}
    (stands : d.HasExpr engine.defaultKey place e) :
    outcomeOf engine deeper e (s.bindingAt (d.tree slot received) place) =
        pure (s.outcomes engine deeper (d.tree slot received) e place) ∧
      ∀ r, s.outcomes engine deeper (d.tree slot received) e place = .ok r →
        r.IsSimple ∧ s.outcomes engine deeper (d.tree slot' later) e place = .ok r := by
  have unmarked (e : Expr) (avoids : e.avoids name = true) := Expr.staticInfo_of_avoids avoids
  have here := (IsInlined.refl d).scopeAt received later alone unmarked unmarked isSlot isSlot' simple'
    (fun place e stands r delivers =>
      ⟨simple place e r stands delivers, more place e r stands delivers⟩) stands
  have there := (IsInlined.refl d).scopeAt later later alone unmarked unmarked isSlot' isSlot' simple'
    (fun place e stands r delivers => ⟨simple' place e r stands delivers, delivers⟩) stands
  exact outcomes_inform deeper rfl here there (d.ofKind stands)

/-- A pass leads from a steady stage to a steady one. -/
theorem IsSteady.pass (steady : IsSteady engine deeper s d slot received) (alone : s.IsAlone)
    (isSlot : d.IsSlot slot) :
    Cascade.pass engine deeper s (d.tree slot received) = pure (d.tree d.captured
      (some ((s.outcomes engine deeper (d.tree slot received)).keeping received))) ∧
    IsSteady engine deeper s d d.captured
      (some ((s.outcomes engine deeper (d.tree slot received)).keeping received)) := by
  have unmarked (e : Expr) (avoids : e.avoids name = true) := Expr.staticInfo_of_avoids avoids
  -- What has been delivered after the pass is what the pass delivers, also where it has been before.
  have again : ∀ place e r, d.HasExpr engine.defaultKey place e →
      Delivers (some ((s.outcomes engine deeper (d.tree slot received)).keeping received)) e place r →
      s.outcomes engine deeper (d.tree slot received) e place = .ok r := by
    intro place e r stands delivers
    rcases delivers_keeping.mp delivers with before | ⟨-, now⟩
    · exact (steady place e r stands before).2
    · exact now
  have here {place : List String} {e : Expr} (stands : d.HasExpr engine.defaultKey place e) :=
    outcomes_later deeper alone isSlot isSlot steady.simple steady.simple
      (fun _ _ _ _ => id) stands
  have simple : d.ReceivesSimple engine.defaultKey
      (some ((s.outcomes engine deeper (d.tree slot received)).keeping received)) :=
    fun place e r stands delivers => ((here stands).2 r (again place e r stands delivers)).1
  refine ⟨d.pass_tree alone unmarked isSlot steady.simple fun place e stands _ => (here stands).1, ?_⟩
  intro place e r stands delivers
  exact (outcomes_later deeper alone isSlot (.inr rfl) steady.simple simple
    (fun _ _ _ _ before => delivers_keeping.mpr (.inl before)) stands).2 r
      (again place e r stands delivers)

/-- A steady stage at which nothing is delivered that has not been received. -/
structure IsFixpoint (engine : Engine) (deeper : Deeper) (s : Setting)
    (d : TemplateDocument name fun e => e.avoids name = true) (received : Option Outcomes) : Prop
    where
  steady : IsSteady engine deeper s d d.captured received
  delivers : ∀ place e r, d.HasExpr engine.defaultKey place e →
    s.outcomes engine deeper (d.tree d.captured received) e place = .ok r →
    Delivers received e place r

end

/-! ### The document with the body in place -/

section

variable (d : TemplateDocument name fun e => e.mayUse name = true) {defaultKey : String}
  {place path : List String} {e e' : Expr}

/-- The document with the body of the template in place of its substitutions. -/
def inlined : TemplateDocument name fun e => e.avoids name = true where
  source := d.source
  directive := d.directive
  body := d.body
  fields := fieldsInlined (Expr.substitutes name) d.body d.fields
  marks := d.marks
  clear := d.clear
  inside := d.inside
  distinct := keys_fieldsInlined.symm ▸ d.distinct
  plain := by
    rw [fieldsInlined_eq_map]
    exact List.forall_mem_map.mpr d.plain
  template := by
    rw [find?_fieldsInlined, d.template, Option.map_some, Node.inlined_map, fieldsInlined_eq_self]
    intro field member
    rcases Fields.mem_insert member with rfl | known
    · exact Node.inlined_of_expr? d.marks
    · exact (d.inside.field known).2.inlined_eq_self fun e => Expr.not_substitutes_of_avoids
  others := by
    rw [fieldsInlined_eq_map]
    refine List.forall_mem_map.mpr fun field member differs => ?_
    refine (d.others field member differs).inlined d.inside fun e uses others => ?_
    exact ((Bool.or_eq_true _ _).mp uses).resolve_right (by simp [others])

theorem isInlined : IsInlined (Expr.substitutes name) d d.inlined := ⟨rfl, rfl⟩

theorem document_inlined :
    d.inlined.document = d.document.inlined (Expr.substitutes name) d.body := by
  rw [document, document, Node.inlined_map]
  rfl

variable {d}

/-- What has become of the node of an expression in the document with the body in place. -/
theorem exists_inlined (stands : d.HasExpr defaultKey place e) :
    ∃ key rest child found, place = key :: rest ∧ key ≠ name ∧
      Fields.find? d.inlined.fields key = some child ∧
      child.MadeOf (fun e => e.avoids name = true) ∧
      child.lookup? rest defaultKey =
        some (if e.substitutes name then ⟨.map d.body, {}, found.source⟩ else found) ∧
      found.expr? = some e := by
  obtain ⟨key, rest, child, rfl, differs, known, found, finds, written⟩ := stands
  have made := d.others _ (Fields.mem_of_find? known) differs
  have found' : Fields.find? d.inlined.fields key =
      some (child.inlined (Expr.substitutes name) d.body) := by
    rw [d.isInlined.fields, find?_fieldsInlined, known]
    rfl
  refine ⟨key, rest, _, found, rfl, differs, found',
    d.inlined.others _ (Fields.mem_of_find? found') differs, ?_, written⟩
  rw [made.lookup?_inlined finds, Node.inlined_of_expr? written]

/-- Expressions that are not replaced stand where they stood. -/
theorem HasExpr.inlined (stands : d.HasExpr defaultKey place e) (avoids : e.avoids name = true) :
    d.inlined.HasExpr defaultKey place e := by
  obtain ⟨key, rest, child, found, rfl, differs, known, -, finds, written⟩ := exists_inlined stands
  rw [Expr.not_substitutes_of_avoids avoids, if_neg Bool.false_ne_true] at finds
  exact ⟨key, rest, child, rfl, differs, known, found, finds, written⟩

/-- The expressions of the body stand below the places of the substitutions. -/
theorem HasExpr.inlined_append (stands : d.HasExpr defaultKey place e)
    (substitutes : e.substitutes name = true) (inside : d.bodyNode.HasExpr defaultKey path e') :
    d.inlined.HasExpr defaultKey (place ++ path) e' := by
  obtain ⟨key, rest, child, found, rfl, differs, known, -, finds, -⟩ := exists_inlined stands
  rw [if_pos substitutes] at finds
  refine ⟨key, rest ++ path, child, rfl, differs, known, ?_⟩
  cases path with
  | nil => exact absurd inside Node.not_hasExpr_nil
  | cons segment path =>
    obtain ⟨last, reaches, written⟩ := inside
    refine ⟨last, ?_, written⟩
    rw [Node.lookup?_append, finds]
    exact reaches

/-- In place of a substitution stands what the body has become there. -/
theorem lookup?_substituted {slot : Node} {later : Option Outcomes}
    (stands : d.HasExpr defaultKey place e) (substitutes : e.substitutes name = true) :
    ∃ source, (d.inlined.tree slot later).lookup? place defaultKey =
      some ⟨.map (stageFields later d.body place), {}, source⟩ := by
  obtain ⟨key, rest, child, found, rfl, differs, known, made, finds, -⟩ := exists_inlined stands
  rw [if_pos substitutes] at finds
  refine ⟨found.source, ?_⟩
  rw [tree, Node.lookup?_map_cons, d.inlined.find?_tree differs, known, Option.bind_some]
  cases becomes : child.stage later [key] with
  | some next => exact (made.lookup?_stage becomes finds).trans Node.stage_map
  | none =>
    obtain ⟨e', r, written, -⟩ := made.exists_of_stage_eq_none becomes
    cases rest with
    | nil =>
      cases finds
      cases written
    | cons segment rest =>
      rw [Node.lookup?_cons_of_expr? written] at finds
      cases finds

end

/-! ### The document that a substitution makes -/

/-- The setting of the document that a substitution makes at a place. -/
def substitutionSetting (b : Binding) : Setting :=
  { id := b.document.id.nested b.path, outer := some b.scope, depth := b.depth + 1 }

/-- The body of the template at a stage of the document that a substitution makes. -/
def bodyStage (d : TemplateDocument name kind) (received : Option Outcomes) : Node :=
  ⟨.map (stageFields received d.body []), {}, d.source⟩

theorem stage_bodyNode {d : TemplateDocument name kind} {received : Option Outcomes} :
    d.bodyNode.stage received [] = some (d.bodyStage received) := Node.stage_map

/-- A document that a substitution makes is flowed without stubs. -/
theorem flowNested_substitution {engine : Engine} {deeper : Deeper} {node : Node} {b : Binding} :
    flowNested engine deeper node b none none =
      (ExceptT.lift (settleWithin engine deeper (substitutionSetting b) engine.maxPasses node) >>=
        fun settled =>
          match settled with
          | some tree => nestedValue engine tree
          | none => fail (.custom ("nested document did not settle after " ++
              toString engine.maxPasses ++ " passes"))) := by
  have prepared : prepareNested engine deeper (b.document.id.nested b.path) [] b = pure [] := rfl
  rw [flowNested, Option.getD_none]
  dsimp only
  rw [prepared, pure_bind]
  rfl

/-- At a stage of the document that a substitution makes, what an expression has received is what it
has received where the body stands in place. -/
def BodyFits (d : TemplateDocument name kind) (defaultKey : String)
    (inner later : Option Outcomes) (place : List String) : Prop :=
  ∀ path e, d.bodyNode.HasExpr defaultKey path e →
    Fits (fun _ => false) [] inner later e path (place ++ path)

section

variable {d : TemplateDocument name fun e => e.mayUse name = true} {engine : Engine}
  {deeper deeper' : Deeper} {s : Setting} {slot : Node} {received later inner : Option Outcomes}
  {defaultKey : String} {place path : List String} {e e' : Expr}

theorem BodyFits.simple (fits : d.BodyFits defaultKey inner later place) :
    d.bodyNode.ReceivesSimple defaultKey inner [] :=
  fun path e r stands delivers => (fits path e stands r delivers).1

theorem BodyFits.approximates (fits : d.BodyFits defaultKey inner later place) :
    Approximates (some (d.bodyStage inner))
      (some ⟨.map (stageFields later d.body place), {}, d.source⟩) := by
  have stages : Approximates (d.bodyNode.stage inner [])
      ((d.bodyNode.inlined (fun _ => false) []).stage later place) :=
    d.inside.approximates (fun e avoids => Expr.staticInfo_of_avoids avoids) fits
  rwa [stage_bodyNode, bodyNode, Node.inlined_map, fieldsInlined_nothing, Node.stage_map] at stages

/-- The maps around an expression of the body are there at every stage. -/
theorem surrounds_bodyStage (stands : d.bodyNode.HasExpr defaultKey path e') :
    (d.bodyStage inner).Surrounds defaultKey path := by
  have first : d.BodyFits defaultKey none inner [] := by
    rintro path e - r ⟨_, ⟨⟩, -⟩
  exact first.approximates.surrounds stands.surrounds

/-- A stage of the document fits one of the document with the body in place: what an expression has
received it has received there as well, and a substitution has received what the body has become. -/
def StageFits (d : TemplateDocument name fun e => e.mayUse name = true) (defaultKey : String)
    (received later : Option Outcomes) : Prop :=
  ∀ place e, d.HasExpr defaultKey place e →
    Fits (Expr.substitutes name) d.body received later e place place

theorem StageFits.simple (fits : d.StageFits defaultKey received later) :
    d.ReceivesSimple defaultKey received :=
  fun place e r stands delivers => (fits place e stands r delivers).1

theorem StageFits.apart (fits : d.StageFits defaultKey received later) :
    ApproximatesApart name (d.tree slot received) (d.inlined.tree d.inlined.captured later) :=
  d.approximatesApart (fun _ => Expr.staticInfo_of_mayUse) d.inlined rfl rfl fits

theorem StageFits.findTag? (fits : d.StageFits defaultKey received later) (isSlot : d.IsSlot slot)
    (tag : String) : (d.tree slot received).findTag? tag = none :=
  d.findTag?_tree (fun _ => Expr.staticInfo_of_mayUse) fits.simple isSlot tag

/-- What is seen inside the document that a substitution makes approximates what is seen where the
body stands in place. -/
theorem BodyFits.scopeAt (bodyFits : d.BodyFits defaultKey inner later place) (alone : s.IsAlone)
    (isSlot : d.IsSlot slot) (simple : d.inlined.ReceivesSimple defaultKey later)
    (fits : d.StageFits defaultKey received later) (stands : d.HasExpr defaultKey place e)
    (substitutes : e.substitutes name = true) (inside : d.bodyNode.HasExpr defaultKey path e') :
    ((substitutionSetting (s.bindingAt (d.tree slot received) place)).scopeAt
        (d.bodyStage inner) path).Approximates defaultKey name
      (s.scopeAt (d.inlined.tree d.inlined.captured later) (place ++ path)) := by
  have placed : ∃ source, (d.inlined.tree d.inlined.captured later).lookup? place defaultKey =
      some ⟨.map (stageFields later d.body place), {}, source⟩ :=
    lookup?_substituted stands substitutes
  obtain ⟨source, finds⟩ := placed
  have untagged := d.inlined.findTag?_tree (fun _ => Expr.staticInfo_of_avoids) simple (.inr rfl)
  refine .intro (shows_scopeAt_inside rfl rfl (shows_scopeAt alone (fits.findTag? isSlot)))
    (shows_scopeAt alone untagged) fits.apart fun key visible => ?_
  rw [findEnclosing?_append finds, findEnclosing?_withSource d.source]
  have around : (d.tree slot received).Surrounds defaultKey place :=
    surrounds (fun _ => Expr.staticInfo_of_mayUse) stands
  exact (bodyFits.approximates.findEnclosing? (surrounds_bodyStage inside)).or
    (fits.apart.findEnclosing? (d.head?_ne stands) around visible)

/-- Inside, what is left without anything unresolved is what the body in place has become. -/
theorem BodyFits.nestedValue {outcomes : Outcomes}
    (bodyFits : d.BodyFits defaultKey (some outcomes) later place) :
    ∃ o, Cascade.nestedValue engine (d.bodyStage (some outcomes)) = ofOutcome o ∧
      ∀ r, o = .ok r → r.IsSimple ∧ r = .ofValue (.map (stageFields later d.body place)) := by
  rw [Cascade.nestedValue]
  split
  · next empty =>
    have whole : d.bodyNode.ReceivesSimple defaultKey (some outcomes) [] := bodyFits.simple
    have stands : d.bodyNode.stage (some outcomes) [] = some (d.bodyStage (some outcomes)) :=
      stage_bodyNode
    have simple : (d.bodyStage (some outcomes)).isSimple = true :=
      d.inside.isSimple_of_unreported (fun _ => Expr.staticInfo_of_avoids) whole stands
        (isEmpty_collect_iff.mp empty)
    obtain ⟨-, same⟩ := bodyFits.approximates.eq_of_isResolved _ rfl
      (Node.isResolved_of_isSimple simple)
    have inert := Node.isInert_of_isPlainData (Node.isPlainData_of_isSimple simple)
    rw [Node.strip?_of_shown (Node.isShown_of_isInert inert), ← Option.some.inj same]
    rw [← Option.some.inj same] at simple
    refine ⟨.ok (.ofValue (.map (stageFields later d.body place))), rfl, ?_⟩
    rintro r ⟨⟩
    exact ⟨Resolved.isSimple_ofValue (Node.isSimple_iff.mp simple).2, rfl⟩
  · exact throw_yields_nothing _

variable (alone : s.IsAlone) (isSlot : d.IsSlot slot)
  (fixed : IsFixpoint engine deeper' s d.inlined later)
  (fits : d.StageFits engine.defaultKey received later)

include alone isSlot fixed fits

/-- What an expression of the body comes to inside, it has received where the body stands. -/
theorem BodyFits.outcomes (deeper : Deeper)
    (bodyFits : d.BodyFits engine.defaultKey inner later place)
    (stands : d.HasExpr engine.defaultKey place e) (substitutes : e.substitutes name = true)
    (inside : d.bodyNode.HasExpr engine.defaultKey path e') :
    let within := substitutionSetting (s.bindingAt (d.tree slot received) place)
    outcomeOf engine deeper e' (within.bindingAt (d.bodyStage inner) path) =
        pure (within.outcomes engine deeper (d.bodyStage inner) e' path) ∧
      ∀ r, within.outcomes engine deeper (d.bodyStage inner) e' path = .ok r →
        r.IsSimple ∧ Delivers later e' (place ++ path) r := by
  intro within
  have simple := fixed.steady.simple
  have inPlace := stands.inlined_append substitutes inside
  have here := bodyFits.scopeAt alone isSlot simple fits stands substitutes inside
  have onward := (IsInlined.refl d.inlined).scopeAt later later alone
    (fun _ => Expr.staticInfo_of_avoids) (fun _ => Expr.staticInfo_of_avoids) (.inr rfl) (.inr rfl)
    simple (fun place e stands r delivers => ⟨simple place e r stands delivers, delivers⟩) inPlace
  have source : (d.inlined.tree d.inlined.captured later).source = (d.bodyStage inner).source := rfl
  obtain ⟨effectless, known⟩ :=
    outcomes_inform deeper' source here onward (d.inside.ofKind inside)
  refine ⟨effectless, fun r outcome => ?_⟩
  obtain ⟨whole, outcome'⟩ := known r outcome
  exact ⟨whole, fixed.delivers _ _ r inPlace outcome'⟩

/-- A pass over the document that a substitution makes leads to a stage of the body that fits. -/
theorem BodyFits.pass (bodyFits : d.BodyFits engine.defaultKey inner later place)
    (stands : d.HasExpr engine.defaultKey place e) (substitutes : e.substitutes name = true) :
    ∃ outcomes, d.BodyFits engine.defaultKey (some outcomes) later place ∧
      Cascade.pass engine deeper (substitutionSetting (s.bindingAt (d.tree slot received) place))
        (d.bodyStage inner) = pure (d.bodyStage (some outcomes)) := by
  let within := substitutionSetting (s.bindingAt (d.tree slot received) place)
  let outcomes := within.outcomes engine deeper (d.bodyStage inner)
  have each {path : List String} {e' : Expr}
      (inside : d.bodyNode.HasExpr engine.defaultKey path e') :=
    bodyFits.outcomes alone isSlot fixed fits deeper stands substitutes inside
  have unmarked (e : Expr) (avoids : e.avoids name = true) := Expr.staticInfo_of_avoids avoids
  refine ⟨outcomes.keeping inner, ?_, ?_⟩
  · intro path e' inside r delivers
    rcases delivers_keeping.mp delivers with before | ⟨-, now⟩
    · exact bodyFits path e' inside r before
    · exact (each inside).2 r now
  · have becomes : (d.bodyStage inner).advance outcomes [] =
        some (d.bodyStage (some (outcomes.keeping inner))) := by
      have advances : (d.bodyNode.stage inner []).bind (fun child => child.advance outcomes []) =
          d.bodyNode.advance (outcomes.keeping inner) [] :=
        d.inside.stage_advance unmarked bodyFits.simple
      rw [stage_bodyNode, Option.bind_some] at advances
      have onward : d.bodyNode.stage (some (outcomes.keeping inner)) [] =
          some (d.bodyStage (some (outcomes.keeping inner))) := stage_bodyNode
      exact advances.trans onward
    have made := d.inside.stage unmarked bodyFits.simple stage_bodyNode
    have effectless : ∀ path e', (d.bodyStage inner).HasExpr engine.defaultKey path e' →
        outcomeOf engine deeper e' (within.bindingAt (d.bodyStage inner) ([] ++ path)) =
          pure (outcomes e' ([] ++ path)) := fun path e' inside =>
      (each ((d.inside.hasExpr_stage unmarked bodyFits.simple stage_bodyNode).mp inside).1).1
    rw [Cascade.pass]
    change flowNode engine deeper _ (d.bodyStage inner) (within.bindingAt (d.bodyStage inner) []) _
      >>= _ = _
    rw [flowNode_of_madeOf rfl rfl made unmarked effectless (by omega), pure_bind, becomes]
    rfl

/-- The value of the document that a substitution makes is what the body in place has become. -/
theorem flowNested_fits (stands : d.HasExpr engine.defaultKey place e)
    (substitutes : e.substitutes name = true) :
    ∃ o, flowNested engine deeper d.bodyNode (s.bindingAt (d.tree slot received) place) none none =
        ofOutcome o ∧
      ∀ r, o = .ok r → r.IsSimple ∧ r = .ofValue (.map (stageFields later d.body place)) := by
  let within := substitutionSetting (s.bindingAt (d.tree slot received) place)
  have start : d.BodyFits engine.defaultKey none later place := by
    rintro path e - r ⟨_, ⟨⟩, -⟩
  have step : ∀ root, (∃ inner, root = d.bodyStage inner ∧
      d.BodyFits engine.defaultKey inner later place) → ∃ next,
      Cascade.pass engine deeper within root = pure next ∧ ∃ inner, next = d.bodyStage inner ∧
        d.BodyFits engine.defaultKey inner later place := by
    rintro _ ⟨inner, rfl, bodyFits⟩
    obtain ⟨outcomes, fits', passes⟩ := bodyFits.pass alone isSlot fixed fits stands substitutes
    exact ⟨_, passes, some outcomes, rfl, fits'⟩
  have settles : ∃ result, settleWithin engine deeper within engine.maxPasses d.bodyNode =
      pure result ∧ ∀ tree, result = some tree → ∃ before,
        (∃ inner, before = d.bodyStage inner ∧ d.BodyFits engine.defaultKey inner later place) ∧
        Cascade.pass engine deeper within before = pure tree :=
    settleWithin_cases _ step ⟨none, rfl, start⟩
  obtain ⟨result, settled, last⟩ := settles
  rw [flowNested_substitution, settled, Eval.lift_pure, pure_bind]
  cases result with
  | none => exact throw_yields_nothing _
  | some tree =>
    obtain ⟨_, ⟨inner, rfl, bodyFits⟩, passed⟩ := last tree rfl
    obtain ⟨outcomes, fits', passes⟩ := bodyFits.pass alone isSlot fixed fits stands substitutes
    obtain rfl : d.bodyStage (some outcomes) = tree :=
      Run.eq_of_pure (congrFun (passes.symm.trans passed) {})
    exact fits'.nestedValue

omit alone fixed fits in
/-- The template itself is what stands under its name in the document. -/
theorem eq_body_of_slot {root node body : Node}
    (top : (d.tree slot received).lookup? [] engine.defaultKey = some root)
    (field : root.field? name = some node) (template : node.value = .template body) :
    body = d.bodyNode := by
  cases top
  rw [tree, Node.field?_map, Fields.find?_pick] at field
  split at field
  · rw [if_pos rfl] at field
    cases field
    rcases isSlot with rfl | rfl
    · cases template
    · cases template
      rfl
  · cases field

omit fixed in
/-- At the place of a substitution, the template is the only one that a reference can mean. -/
theorem eq_body_of_resolve {resolved : Resolved} {body : Node}
    (stands : d.HasExpr engine.defaultKey place e)
    (resolves : (Reference.relative [name]).resolve (s.scopeAt (d.tree slot received) place)
      engine.defaultKey false = .ok resolved) (template : resolved.value = .template body) :
    body = d.bodyNode := by
  obtain ⟨node, finds, complete, rfl⟩ := resolve_eq_ok_iff.mp resolves
  have shown : (s.scopeAt (d.tree slot received) place).Shows engine.defaultKey _ _ :=
    shows_scopeAt alone (fits.findTag? isSlot)
  obtain ⟨failure, searched⟩ := shown.relative name [] (Reference.findRelative engine.defaultKey [])
  change Reference.search engine.defaultKey name [] _ _ = _ at finds
  rw [searched] at finds
  cases encloses : Reference.findEnclosing? engine.defaultKey (d.tree slot received) place name with
  | none =>
    rw [encloses] at finds
    cases finds
  | some found =>
    rw [encloses] at finds
    cases finds
    obtain ⟨depth, -, here⟩ := List.exists_of_findSome?_eq_some encloses
    obtain ⟨container, reaches, field⟩ := Option.bind_eq_some_iff.mp here
    cases depth with
    | zero => exact d.eq_body_of_slot isSlot reaches field template
    | succ depth =>
      -- Below the visible fields, what is resolved is simple, and no template.
      obtain ⟨key, rest, child, rfl, differs, -⟩ := stands
      rw [List.take_succ_cons] at reaches
      have whole : (d.tree slot received).lookup? (key :: (rest.take depth ++ [name]))
          engine.defaultKey = some node := by
        rw [← List.cons_append, Node.lookup?_append, reaches, Option.bind_some, Node.lookup?_cons,
          Node.step?_of_field? field]
        rfl
      rw [tree, Node.lookup?_map_cons] at whole
      obtain ⟨next, step, below⟩ := Option.bind_eq_some_iff.mp whole
      obtain ⟨later, known⟩ := (fits.apart.field? differs).lookup? next step below
      have simple := (known.eq_of_isResolved node rfl complete).1
      have shape : node.value = .template body := template
      have absurd := (Node.isSimple_iff.mp simple).2
      rw [shape] at absurd
      cases absurd

/-- A substitution is evaluated without effect, to what the body in place has become if to
anything. -/
theorem evaluate_substitution (fuel levels : Nat) (stands : d.HasExpr engine.defaultKey place e)
    (substitutes : e.substitutes name = true) :
    ∃ o, evaluate engine (level engine fuel levels) e (s.bindingAt (d.tree slot received) place) =
        ofOutcome o ∧
      ∀ r, o = .ok r → r.IsSimple ∧ r = .ofValue (.map (stageFields later d.body place)) := by
  have shape := Expr.eq_of_substitutes substitutes
  rw [shape, evaluate, evaluate]
  change ∃ o, (ofOutcome ((Reference.relative [name]).resolve
    (s.scopeAt (d.tree slot received) place) engine.defaultKey false) >>= _) = _ ∧ _
  cases resolves : (Reference.relative [name]).resolve (s.scopeAt (d.tree slot received) place)
    engine.defaultKey false with
  | error u => exact throw_yields_nothing u
  | ok resolved =>
    simp only [Eval.Related.ofOutcome_bind]
    split
    · next body template =>
      obtain rfl := eq_body_of_resolve alone isSlot fits stands resolves template
      cases levels with
      | zero => exact throw_yields_nothing _
      | succ levels => exact flowNested_fits alone isSlot fixed fits stands substitutes
    · exact throw_yields_nothing _

/-- What an expression comes to at a stage, it has received in the document with the body in place,
or it is what the body has become there. -/
theorem StageFits.outcomes (fuel levels : Nat) (stands : d.HasExpr engine.defaultKey place e) :
    let outcomes := s.outcomes engine (level engine fuel levels) (d.tree slot received)
    outcomeOf engine (level engine fuel levels) e (s.bindingAt (d.tree slot received) place) =
        pure (outcomes e place) ∧
      ∀ r, outcomes e place = .ok r → r.IsSimple ∧
        if e.substitutes name then r = .ofValue (.map (stageFields later d.body place))
        else Delivers later e place r := by
  intro outcomes
  cases substitutes : e.substitutes name with
  | true =>
    obtain ⟨o, evaluates, known⟩ := evaluate_substitution alone isSlot fixed fits fuel
      levels stands substitutes
    have outcome : outcomes e place = o := outcomes_eq evaluates
    rw [outcome, outcomeOf, evaluates]
    exact ⟨rfl, known⟩
  | false =>
    have avoids : e.avoids name = true :=
      ((Bool.or_eq_true _ _).mp (d.ofKind stands)).resolve_right (by simp [substitutes])
    have unmarked (e : Expr) (avoids : e.avoids name = true) := Expr.staticInfo_of_avoids avoids
    have inPlace := stands.inlined avoids
    have here := d.isInlined.scopeAt received later alone (fun _ => Expr.staticInfo_of_mayUse)
      unmarked isSlot (.inr rfl) fixed.steady.simple fits stands
    have onward := (IsInlined.refl d.inlined).scopeAt later later alone unmarked unmarked (.inr rfl)
      (.inr rfl) fixed.steady.simple
      (fun place e stands r delivers => ⟨fixed.steady.simple place e r stands delivers, delivers⟩)
      inPlace
    have source : (d.inlined.tree d.inlined.captured later).source = (d.tree slot received).source :=
      rfl
    obtain ⟨effectless, known⟩ := outcomes_inform deeper' source here onward avoids
    refine ⟨effectless, fun r outcome => ?_⟩
    obtain ⟨simple, outcome'⟩ := known r outcome
    exact ⟨simple, fixed.delivers _ _ r inPlace outcome'⟩

/-- A pass leads to a stage that fits. -/
theorem StageFits.pass {fuel levels : Nat} :
    ∃ outcomes, d.StageFits engine.defaultKey (some outcomes) later ∧
      Cascade.pass engine (level engine fuel levels) s (d.tree slot received) =
        pure (d.tree d.captured (some outcomes)) := by
  have each {place : List String} {e : Expr} (stands : d.HasExpr engine.defaultKey place e) :=
    fits.outcomes alone isSlot fixed fuel levels stands
  refine ⟨_, ?_, d.pass_tree alone (fun _ => Expr.staticInfo_of_mayUse) isSlot fits.simple
    fun place e stands _ => (each stands).1⟩
  intro place e stands r delivers
  rcases delivers_keeping.mp delivers with before | ⟨-, now⟩
  · exact fits place e stands r before
  · exact (each stands).2 r now

end

end TemplateDocument

end Cascade
