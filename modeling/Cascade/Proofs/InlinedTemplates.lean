import Cascade.Proofs.Substitution

/-!
# Documents with the body of a template in place

The passes over a document without substitutions come to a stage at which nothing is delivered any
more, since each pass before leaves fewer expressions. Every document with substitutions that is
resolved is resolved to this stage of the document with the body in place, so that the stage is
determined, and the passes over the latter end there.

## Main statements

* `TemplateDocument.IsSteady.exists_isFixpoint`: the passes come to a fixpoint.
* `TemplateDocument.StageFits.tree_eq`: what is resolved is that fixpoint.
* `apply_inlined`: a document with the body of a template in place of its substitutions flows to what
  the document with the substitutions flows to.
-/

namespace Cascade

open Eval

namespace TemplateDocument

variable {name : String} {engine : Engine} {deeper : Deeper} {s : Setting} {slot : Node}
  {received later : Option Outcomes}

/-! ### Fixpoints -/

section

variable {d : TemplateDocument name fun e => e.avoids name = true}

/-- No expression comes up in a pass. If there are as many as before, the template was captured
already, and the pass has delivered nothing new. -/
theorem IsSteady.exprCount_pass (steady : IsSteady engine deeper s d slot received)
    (alone : s.IsAlone) (isSlot : d.IsSlot slot) :
    let outcomes := s.outcomes engine deeper (d.tree slot received)
    let next := d.tree d.captured (some (outcomes.keeping received))
    next.exprCount ≤ (d.tree slot received).exprCount ∧
      ((d.tree slot received).exprCount ≤ next.exprCount → slot = d.captured ∧
        ∀ place e r, d.HasExpr engine.defaultKey place e → outcomes e place = .ok r →
          Delivers received e place r) := by
  intro outcomes next
  have unmarked (e : Expr) (avoids : e.avoids name = true) := Expr.staticInfo_of_avoids avoids
  have known : ∀ place e r, d.HasExpr engine.defaultKey place e → outcomes e place = .ok r →
      r.IsSimple := fun place e r stands outcome =>
    ((outcomes_later deeper alone isSlot isSlot steady.simple steady.simple
      (fun _ _ _ _ => id) stands).2 r outcome).1
  let now (key : String) : Option Node :=
    if key = name then some slot
    else (Fields.find? d.fields key).bind fun child => child.stage received [key]
  let after (key : String) : Option Node :=
    if key = name then some d.captured
    else (Fields.find? d.fields key).bind fun child =>
      child.stage (some (outcomes.keeping received)) [key]
  obtain ⟨none, captures⟩ := d.exprCount_slot isSlot
  have counts {key : String} {child : Node} (visible : key ≠ name)
      (found : Fields.find? d.fields key = some child) :
      (now key).elim 0 Node.exprCount = (child.stage received [key]).elim 0 Node.exprCount ∧
      (after key).elim 0 Node.exprCount =
        (child.stage (some (outcomes.keeping received)) [key]).elim 0 Node.exprCount := by
    simp only [now, after, if_neg visible, found, Option.bind_some, and_self]
  have inside {key : String} {child : Node} (visible : key ≠ name)
      (found : Fields.find? d.fields key = some child) :=
    (d.others _ (Fields.mem_of_find? found) visible).exprCount_stage unmarked
      (steady.simple.field visible found) fun path e r stands =>
        known (key :: path) e r ⟨key, path, child, rfl, visible, found, stands⟩
  have each : ∀ key ∈ Fields.keys d.fields,
      (after key).elim 0 Node.exprCount ≤ (now key).elim 0 Node.exprCount := by
    intro key member
    by_cases same : key = name
    · simp only [after, if_pos same, Option.elim_some, none]
      exact Nat.zero_le _
    · obtain ⟨field, present, rfl⟩ := List.mem_map.mp member
      have found := Fields.find?_of_mem d.distinct present
      obtain ⟨before, behind⟩ := counts same found
      rw [before, behind]
      exact (inside same found).1
  obtain ⟨less, equal⟩ := sum_map_le each
  have before : (d.tree slot received).exprCount =
      ((Fields.keys d.fields).map fun key => (now key).elim 0 Node.exprCount).sum :=
    Node.exprCount_pick
  have behind : next.exprCount =
      ((Fields.keys d.fields).map fun key => (after key).elim 0 Node.exprCount).sum :=
    Node.exprCount_pick
  rw [before, behind]
  refine ⟨less, fun total => ⟨captures ?_, fun place e r stands outcome => ?_⟩⟩
  · have member : name ∈ Fields.keys d.fields :=
      List.mem_map_of_mem (Fields.mem_of_find? d.template)
    have count := equal total name member
    simp only [now, after, if_pos, Option.elim_some, none] at count
    exact Nat.le_zero.mp count
  · by_contra waits
    obtain ⟨key, rest, child, rfl, visible, found, below⟩ := stands
    have count := equal total key (List.mem_map_of_mem (Fields.mem_of_find? found))
    obtain ⟨was, is⟩ := counts visible found
    rw [was, is] at count
    refine (inside visible found).2 count rest e r below (fun r' delivers => ?_) outcome
    have again := (steady (key :: rest) e r'
      ⟨key, rest, child, rfl, visible, found, below⟩ delivers).2
    cases again.symm.trans outcome
    exact waits delivers

/-- The passes from a steady stage come to a fixpoint. -/
theorem IsSteady.exists_isFixpoint (steady : IsSteady engine deeper s d slot received)
    (alone : s.IsAlone) (isSlot : d.IsSlot slot) :
    ∃ later, IsFixpoint engine deeper s d later := by
  generalize total : (d.tree slot received).exprCount = count
  induction count using Nat.strong_induction_on generalizing slot received with
  | _ count ih =>
    obtain ⟨-, equal⟩ := steady.exprCount_pass alone isSlot
    by_cases falls : (d.tree d.captured (some ((s.outcomes engine deeper
        (d.tree slot received)).keeping received))).exprCount < count
    · exact ih _ falls (steady.pass alone isSlot).2 (.inr rfl) rfl
    · obtain ⟨rfl, delivers⟩ := equal (by omega)
      exact ⟨received, steady, delivers⟩

/-- A pass over a fixpoint leads to a fixpoint. -/
theorem IsFixpoint.pass (fixed : IsFixpoint engine deeper s d later) (alone : s.IsAlone) :
    IsFixpoint engine deeper s d
      (some ((s.outcomes engine deeper (d.tree d.captured later)).keeping later)) := by
  have steady := (fixed.steady.pass alone (.inr rfl)).2
  refine ⟨steady, fun place e r stands outcome => delivers_keeping.mpr (.inl ?_)⟩
  have onward : ∀ place e r, d.HasExpr engine.defaultKey place e → Delivers
      (some ((s.outcomes engine deeper (d.tree d.captured later)).keeping later)) e place r →
      Delivers later e place r := by
    intro place e r stands delivers
    rcases delivers_keeping.mp delivers with before | ⟨-, now⟩
    · exact before
    · exact fixed.delivers place e r stands now
  exact fixed.delivers place e r stands ((outcomes_later deeper alone (.inr rfl) (.inr rfl)
    steady.simple fixed.steady.simple onward stands).2 r outcome).2

/-- A stage looks like itself. -/
theorem same_tree (simple : d.ReceivesSimple engine.defaultKey later) :
    (d.tree d.captured later).same (d.tree d.captured later) = true := by
  have alike (e : Expr) (avoids : e.avoids name = true) : e.same e = true :=
    Expr.same_self_of_isPlainPart (Expr.isPlainPart_of_avoids avoids)
  have fields : ∀ field ∈ Fields.pick (Fields.keys d.fields) fun key =>
      if key = name then some d.captured
      else (Fields.find? d.fields key).bind fun child => child.stage later [key],
      field.2.same field.2 = true := by
    intro field member
    obtain ⟨-, picked⟩ := Fields.mem_pick.mp member
    split at picked
    · rw [← Option.some.inj picked]
      have body : d.bodyNode.same d.bodyNode = true := d.inside.same_self alike
      simpa [captured, Node.same, Value.same] using body
    · next visible =>
      obtain ⟨child, known, stands⟩ := Option.bind_eq_some_iff.mp picked
      have made := d.others _ (Fields.mem_of_find? known) visible
      exact (made.stage (fun _ => Expr.staticInfo_of_avoids) (simple.field visible known)
        stands).same_self alike
  simp [tree, Node.same, Value.same, sameFields_self fields]

end

/-! ### What is resolved -/

section

variable {d : TemplateDocument name fun e => e.mayUse name = true} {deeper' : Deeper}

/-- If nothing of a stage is reported, it is what the document with the body in place has become. -/
theorem StageFits.tree_eq {outcomes : Outcomes}
    (fits : d.StageFits engine.defaultKey (some outcomes) later)
    (unreported : (d.tree d.captured (some outcomes)).isReported = false) :
    d.tree d.captured (some outcomes) = d.inlined.tree d.inlined.captured later := by
  have apart : ApproximatesApart name (d.tree d.captured (some outcomes))
      (d.inlined.tree d.inlined.captured later) := fits.apart
  have keys : Fields.keys d.inlined.fields = Fields.keys d.fields := keys_fieldsInlined
  rw [tree, Node.isReported, Value.isReported, fieldsReported_eq_any, Bool.or_eq_false_iff,
    List.any_eq_false] at unreported
  rw [tree, tree, keys, Fields.pick_congr fun key member => ?_]
  · rfl
  · by_cases same : key = name
    · rw [if_pos same, if_pos same]
      rfl
    · have field := apart.field? same
      rw [tree, tree, Node.field?_map, Node.field?_map, d.find?_tree same,
        d.inlined.find?_tree same] at field
      rw [if_neg same, if_neg same]
      cases becomes : (Fields.find? d.fields key).bind fun child =>
          child.stage (some outcomes) [key] with
      | none => exact (becomes ▸ field).eq_none.symm
      | some next =>
        obtain ⟨child, known, stands⟩ := Option.bind_eq_some_iff.mp becomes
        have listed := unreported.2 (key, next) (Fields.mem_pick.mpr ⟨member, by
          rw [if_neg same, becomes]⟩)
        have simple : next.isSimple = true :=
          (d.others _ (Fields.mem_of_find? known) same).isSimple_of_unreported
            (fun _ => Expr.staticInfo_of_mayUse) (fits.simple.field same known) stands
            (by simpa using listed)
        exact ((becomes ▸ field).eq_of_isResolved next rfl
          (Node.isResolved_of_isSimple simple)).2.symm

/-- If the document is resolved, then to any fixpoint of the document with the body in place. -/
theorem IsFixpoint.eq_of_settles {fuel levels passes : Nat} {tree : Node} {world world' : World}
    (fixed : IsFixpoint engine deeper' s d.inlined later) (alone : s.IsAlone)
    (settles : settleWithin engine (level engine fuel levels) s passes d.document world =
      some (some tree, world'))
    (unreported : tree.isReported = false) :
    tree = d.inlined.tree d.inlined.captured later ∧ world' = world := by
  have start : d.StageFits engine.defaultKey none later := by
    rintro place e - r ⟨_, ⟨⟩, -⟩
  have step : ∀ root, (∃ slot received, root = d.tree slot received ∧ d.IsSlot slot ∧
      d.StageFits engine.defaultKey received later) → ∃ next,
      Cascade.pass engine (level engine fuel levels) s root = pure next ∧
      ∃ slot received, next = d.tree slot received ∧ d.IsSlot slot ∧
        d.StageFits engine.defaultKey received later := by
    rintro _ ⟨slot, received, rfl, isSlot, fits⟩
    obtain ⟨outcomes, fits', passes⟩ := fits.pass alone isSlot fixed
    exact ⟨_, passes, d.captured, some outcomes, rfl, .inr rfl, fits'⟩
  obtain ⟨result, settled, last⟩ := settleWithin_cases passes step
    ⟨d.written, none, d.tree_written.symm, .inl rfl, start⟩
  rw [settled] at settles
  cases settles
  obtain ⟨_, ⟨slot, received, rfl, isSlot, fits⟩, passed⟩ := last tree rfl
  obtain ⟨outcomes, fits', passes⟩ := fits.pass alone isSlot fixed
  obtain rfl : d.tree d.captured (some outcomes) = tree :=
    Run.eq_of_pure (congrFun (passes.symm.trans passed) {})
  exact ⟨fits'.tree_eq unreported, rfl⟩

/-- If the document is resolved, then the passes over the document with the body in place come to
the same tree. -/
theorem settle_inlined {fuel levels passes : Nat} {tree : Node} {world world' : World}
    (alone : s.IsAlone) (enough : d.inlined.document.exprCount + 2 ≤ passes)
    (settles : settleWithin engine (level engine fuel levels) s passes d.document world =
      some (some tree, world'))
    (unreported : tree.isReported = false) :
    settleWithin engine (level engine fuel levels) s passes d.inlined.document =
      pure (some tree) ∧ world' = world := by
  let deeper := level engine fuel levels
  have start : IsSteady engine deeper s d.inlined d.inlined.written none := by
    rintro place e r - ⟨_, ⟨⟩, -⟩
  obtain ⟨later, fixed⟩ := start.exists_isFixpoint alone (.inl rfl)
  obtain ⟨same, rfl⟩ := fixed.eq_of_settles alone settles unreported
  have unique : ∀ later, IsFixpoint engine deeper s d.inlined later →
      d.inlined.tree d.inlined.captured later = tree := fun later fixed =>
    (fixed.eq_of_settles alone settles unreported).1.symm
  have still : Cascade.pass engine deeper s tree = pure tree := by
    conv_lhs => rw [same]
    rw [(fixed.steady.pass alone (.inr rfl)).1, unique _ (fixed.pass alone)]
  have step : ∀ root, (∃ slot received, root = d.inlined.tree slot received ∧
      d.inlined.IsSlot slot ∧ IsSteady engine deeper s d.inlined slot received) → ∃ next,
      Cascade.pass engine deeper s root = pure next ∧
      (∃ slot received, next = d.inlined.tree slot received ∧ d.inlined.IsSlot slot ∧
        IsSteady engine deeper s d.inlined slot received) ∧
      (next.exprCount < root.exprCount ∨ next = tree) := by
    rintro _ ⟨slot, received, rfl, isSlot, steady⟩
    obtain ⟨passes, steady'⟩ := steady.pass alone isSlot
    obtain ⟨-, equal⟩ := steady.exprCount_pass alone isSlot
    refine ⟨_, passes, ⟨d.inlined.captured, _, rfl, .inr rfl, steady'⟩, ?_⟩
    by_contra neither
    obtain ⟨grows, differs⟩ := not_or.mp neither
    obtain ⟨rfl, delivers⟩ := equal (Nat.le_of_not_lt grows)
    exact differs (unique _ (IsFixpoint.pass ⟨steady, delivers⟩ alone))
  refine ⟨settleWithin_of_falling step still ?_
    ⟨d.inlined.written, none, d.inlined.tree_written.symm, .inl rfl, start⟩ enough, rfl⟩
  rw [same]
  exact same_tree fixed.steady.simple

end

end TemplateDocument

/-! ### Whole documents -/

/-- Substituting a template equals writing its body in place. If a document flows with nothing
unresolved, then so does the document with the body of its template in place of the substitutions,
to the same outcome, as soon as a pass may go by for each of its expressions. -/
theorem apply_inlined (engine : Engine) (name : String)
    (d : TemplateDocument name fun e => e.mayUse name = true)
    (enough : (d.document.inlined (Expr.substitutes name) d.body).exprCount + 2 ≤ engine.maxPasses)
    (world world' : World) (outcome : Outcome)
    (succeeds : (engine.apply d.document [] none).run world = some (.ok outcome, world'))
    (complete : outcome.unresolved = none) :
    (engine.apply (d.document.inlined (Expr.substitutes name) d.body) [] none).run world =
      some (.ok outcome, world') := by
  obtain ⟨tree, settles, made⟩ := settle_of_applyPrepared succeeds
  have known : settle engine (engine.below 0) (cascadeSetting ⟨world.documents, []⟩ [] none)
      d.document { world with documents := world.documents + 1 } = some (some tree, world') :=
    settles
  rw [settle_of_noStubs rfl] at known
  have unreported : tree.isReported = false := by
    obtain ⟨-, unresolved⟩ := Engine.eq_of_outcomeOfTree made
    rw [unresolved] at complete
    split at complete
    · next empty => exact isEmpty_collect_iff.mp (isEmpty_of_absorb empty)
    · cases complete
  rw [← d.document_inlined] at enough ⊢
  obtain ⟨settles', rfl⟩ :=
    TemplateDocument.settle_inlined ⟨rfl, rfl, rfl, rfl⟩ enough known unreported
  have applied : engine.applyPrepared d.inlined.document {} none world =
      some (engine.outcomeOfSettled (some tree), { world with documents := world.documents + 1 }) :=
    applyPrepared_of_settle ((settle_of_noStubs rfl).trans settles')
  rw [← made]
  exact applied

/-- A document flows with nothing unresolved, and a field of it comes to a node. -/
def flowsWholly (engine : Engine) (template : Node) (key : String) (node : Node) : Bool :=
  match (engine.apply template [] none).run {} with
  | some (.ok outcome, _) =>
    outcome.unresolved.isNone && (outcome.document.field? key).any fun found => found.same node
  | _ => false

theorem exists_of_flowsWholly {engine : Engine} {template node : Node} {key : String}
    (flows : flowsWholly engine template key node = true) : ∃ outcome world' found,
      (engine.apply template [] none).run {} = some (.ok outcome, world') ∧
      outcome.unresolved = none ∧ outcome.document.field? key = some found ∧
      found.same node = true := by
  unfold flowsWholly at flows
  split at flows
  · next outcome world' ran =>
    rw [Bool.and_eq_true, Option.isNone_iff_eq_none, Option.any_eq_true] at flows
    obtain ⟨complete, found, field, same⟩ := flows
    exact ⟨outcome, world', found, ran, complete, field, same⟩
  · cases flows

/-- The node marks the map around it as a template. -/
def Node.marksTemplate (node : Node) : Bool :=
  match node.expr? with
  | some (.marked [.flag .template] none) => true
  | _ => false

theorem Node.expr?_of_marksTemplate {node : Node} (marks : node.marksTemplate = true) :
    node.expr? = some (.marked [.flag .template] none) := by
  unfold Node.marksTemplate at marks
  split at marks
  · next written => exact written
  · cases marks

/-- A body whose first field refers out of the template, and whose second one refers to the first. -/
def greetingBody : Fields Node :=
  [("x", .plain (.string "(( 1 + n ))") "d"), ("y", .plain (.string "(( x ))") "d")]

/-- A template, a substitution of it, and a field that refers into the substitution. -/
def greetingDocument : TemplateDocument "t" fun e => e.mayUse "t" = true where
  source := "d"
  directive := .plain (.string "(( &template ))") "d"
  body := greetingBody
  fields := [("a", .plain (.map [("b", .plain (.string "(( *t ))") "d"),
      ("c", .plain (.string "(( b.y + 1 ))") "d")]) "d"),
    ("n", .plain (.int 2) "d"),
    ("t", .plain (.map (Fields.insert directiveKey (.plain (.string "(( &template ))") "d")
      greetingBody)) "d")]
  marks := Node.expr?_of_marksTemplate (by decide +kernel)
  clear := rfl
  inside := Node.madeOf_of_isMadeOf (by decide +kernel)
  distinct := by decide
  plain := by
    simp only [List.forall_mem_cons, List.not_mem_nil, false_implies, implies_true, and_true]
    decide
  template := rfl
  others := by
    have each (node : Node) (made : node.isMadeOf (fun e => e.mayUse "t") = true) :
        node.MadeOf fun e => e.mayUse "t" = true := Node.madeOf_of_isMadeOf made
    simp only [List.forall_mem_cons, List.not_mem_nil, false_implies, implies_true, and_true]
    exact ⟨fun _ => each _ (by decide +kernel), fun _ => each _ (by decide +kernel),
      fun differs => absurd rfl differs⟩

/-- What the field around the substitution comes to. -/
def greetings : Node :=
  .ofJson "d" (.object [("b", .object [("x", .int 3), ("y", .int 3)]), ("c", .int 4)])

theorem apply_inlined_greetingDocument :
    (greetingDocument.document.inlined (Expr.substitutes "t") greetingBody).exprCount + 2 ≤
      Engine.standard.maxPasses ∧
    ∃ outcome world' found,
      (Engine.standard.apply greetingDocument.document [] none).run {} =
        some (.ok outcome, world') ∧ outcome.unresolved = none ∧
      (Engine.standard.apply (greetingDocument.document.inlined (Expr.substitutes "t") greetingBody)
        [] none).run {} = some (.ok outcome, world') ∧
      outcome.document.field? "a" = some found ∧ found.same greetings = true := by
  have enough : (greetingDocument.document.inlined (Expr.substitutes "t") greetingBody).exprCount +
      2 ≤ Engine.standard.maxPasses := by decide +kernel
  obtain ⟨outcome, world', found, succeeds, complete, field, same⟩ := exists_of_flowsWholly
    (show flowsWholly Engine.standard greetingDocument.document "a" greetings = true by
      decide +kernel)
  exact ⟨enough, outcome, world', found, succeeds, complete,
    apply_inlined Engine.standard "t" greetingDocument enough {} world' outcome succeeds complete,
    field, same⟩

end Cascade
