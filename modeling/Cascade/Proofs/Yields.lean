import Cascade.Evaluation.Engine

/-!
# What a computation yields

A partial postcondition for evaluations: every value that a computation yields has a property, and
where it yields none it gives an issue that says why. Nothing is said about computations that
exhaust their bound. The rules follow the ways in which computations are put together.

## Main definitions

* `Run.Yields`, `Eval.Yields`: the postconditions.
* `Eval.Returns`: the weaker one, that says nothing where there is no value.
* `Unresolved.IsExplained`: an outcome without a value comes with an issue.

## Main statements

* `Eval.Yields.bind`, `Eval.Yields.mapM`, `Eval.Yields.foldlM`: the rules for sequences.
-/

namespace Cascade

variable {α β : Type}

/-- The outcome says why there is no value. -/
def Unresolved.IsExplained (u : Unresolved) : Prop := u.info.issue.isSome = true

/-- Every result of a computation has a property. -/
def Run.Yields (r : Run α) (P : α → Prop) : Prop :=
  ∀ world world' a, r world = some (a, world') → P a

/-- A value has a property, and the lack of one is explained. -/
def Explains (P : α → Prop) : Except Unresolved α → Prop
  | .ok a => P a
  | .error u => u.IsExplained

/-- Every value that an evaluation yields has a property, and the lack of one is explained. -/
def Eval.Yields (e : Eval α) (P : α → Prop) : Prop := Run.Yields e.run (Explains P)

namespace Run.Yields

variable {P : α → Prop} {Q : β → Prop}

theorem pure {a : α} (holds : P a) : Run.Yields (Pure.pure a) P := by
  rintro world world' b yields
  cases yields
  exact holds

theorem exhausted : Run.Yields (Run.exhausted : Run α) P := by
  rintro world world' b yields
  cases yields

theorem bind {r : Run α} {next : α → Run β} (first : Run.Yields r P)
    (later : ∀ a, P a → Run.Yields (next a) Q) : Run.Yields (r >>= next) Q := by
  intro world world' b yields
  change (r world).bind _ = _ at yields
  obtain ⟨⟨a, middle⟩, start, rest⟩ := Option.bind_eq_some_iff.mp yields
  exact later a (first world middle a start) middle world' b rest

theorem mono {P' : α → Prop} {r : Run α} (yields : Run.Yields r P) (weaker : ∀ a, P a → P' a) :
    Run.Yields r P' :=
  fun world world' a result => weaker a (yields world world' a result)

end Run.Yields

namespace Eval.Yields

variable {P : α → Prop} {Q : β → Prop}

theorem pure {a : α} (holds : P a) : Eval.Yields (Pure.pure a) P :=
  Run.Yields.pure (P := Explains P) (a := .ok a) holds

theorem throw {u : Unresolved} (explained : u.IsExplained) :
    Eval.Yields (MonadExcept.throw u : Eval α) P :=
  Run.Yields.pure (P := Explains P) (a := .error u) explained

theorem exhausted : Eval.Yields (Eval.exhausted : Eval α) P := Run.Yields.exhausted

theorem bind {e : Eval α} {next : α → Eval β} (first : e.Yields P)
    (later : ∀ a, P a → (next a).Yields Q) : (e >>= next).Yields Q := by
  refine Run.Yields.bind first fun outcome holds => ?_
  cases outcome with
  | ok a => exact later a holds
  | error u => exact Run.Yields.pure (P := Explains Q) (a := .error u) holds

theorem mono {P' : α → Prop} {e : Eval α} (yields : e.Yields P) (weaker : ∀ a, P a → P' a) :
    e.Yields P' := by
  refine Run.Yields.mono yields fun outcome holds => ?_
  cases outcome with
  | ok a => exact weaker a holds
  | error u => exact holds

theorem map {e : Eval α} {f : α → β} (first : e.Yields fun a => Q (f a)) : (f <$> e).Yields Q := by
  rw [map_eq_pure_bind]
  exact first.bind fun a holds => pure holds

theorem fail {failure : Failure} : (Eval.fail failure : Eval α).Yields P :=
  throw rfl

theorem ofOutcome {outcome : Except Unresolved α} (holds : Explains P outcome) :
    (Eval.ofOutcome outcome).Yields P :=
  Run.Yields.pure holds

theorem ofFailing {outcome : Except Failure α} (holds : ∀ a, outcome = .ok a → P a) :
    (Eval.ofFailing outcome).Yields P := by
  cases outcome with
  | ok a => exact pure (holds a rfl)
  | error failure => exact fail

theorem lift {r : Run α} (yields : Run.Yields r P) :
    Eval.Yields (ExceptT.lift r : Eval α) P := by
  change Run.Yields (Except.ok <$> r) (Explains P)
  rw [map_eq_pure_bind]
  exact yields.bind fun a holds => Run.Yields.pure (P := Explains P) (a := .ok a) holds

/-- An outcome that is observed has the property, or it is explained. -/
theorem outcome {e : Eval α} (yields : e.Yields P) : e.outcome.Yields (Explains P) := by
  change Run.Yields (Except.ok <$> e.run) (Explains (Explains P))
  rw [map_eq_pure_bind]
  exact Run.Yields.bind yields fun a holds =>
    Run.Yields.pure (P := Explains (Explains P)) (a := .ok a) holds

/-- The results of a list have the property if that of each item has. -/
theorem mapM {f : α → Eval β} {items : List α} (each : ∀ item ∈ items, (f item).Yields Q) :
    (items.mapM f).Yields fun results => ∀ result ∈ results, Q result := by
  induction items with
  | nil =>
    rw [List.mapM_nil]
    exact pure (by simp)
  | cons item rest ih =>
    rw [List.mapM_cons]
    refine bind (each item List.mem_cons_self) fun result holds => ?_
    refine bind (ih fun item member => each item (List.mem_cons_of_mem _ member))
      fun results others => pure ?_
    rintro other (_ | ⟨_, member⟩)
    · exact holds
    · exact others other member

/-- The results of a list that are not left out have the property if that of each item has. -/
theorem filterMapM {f : α → Eval (Option β)} {items : List α}
    (each : ∀ item ∈ items, (f item).Yields fun result => ∀ b ∈ result, Q b) :
    (items.filterMapM f).Yields fun results => ∀ result ∈ results, Q result := by
  induction items with
  | nil =>
    rw [List.filterMapM_nil]
    exact pure (by simp)
  | cons item rest ih =>
    have others := ih fun item member => each item (List.mem_cons_of_mem _ member)
    rw [List.filterMapM_cons]
    refine bind (each item List.mem_cons_self) fun result holds => ?_
    cases result with
    | none => exact others
    | some b =>
      refine bind others fun results known => pure ?_
      rintro other (_ | ⟨_, member⟩)
      · exact holds b rfl
      · exact known other member

/-- An accumulator keeps a property that every step keeps. -/
theorem foldlM {f : β → α → Eval β} {items : List α} {start : β} (holds : Q start)
    (step : ∀ acc item, Q acc → item ∈ items → (f acc item).Yields Q) :
    (items.foldlM f start).Yields Q := by
  induction items generalizing start with
  | nil => exact pure holds
  | cons item rest ih =>
    rw [List.foldlM_cons]
    refine bind (step start item holds List.mem_cons_self) fun acc known => ?_
    exact ih known fun acc item known member => step acc item known (List.mem_cons_of_mem _ member)

/-- What a test selects is found in the list. -/
theorem filterM {test : α → Eval Bool} {items : List α}
    (each : ∀ item ∈ items, (test item).Yields fun _ => True) :
    (items.filterM test).Yields fun selected => ∀ item ∈ selected, item ∈ items := by
  have collects : ∀ acc, (List.filterAuxM test items acc).Yields fun selected =>
      ∀ item ∈ selected, item ∈ items ∨ item ∈ acc := by
    induction items with
    | nil => exact fun acc => pure fun item member => .inr member
    | cons first rest ih =>
      intro acc
      refine bind (each first List.mem_cons_self) fun accepted _ => ?_
      have later := ih (fun item member => each item (List.mem_cons_of_mem _ member))
        (cond accepted (first :: acc) acc)
      refine later.mono fun selected known item member => ?_
      rcases known item member with inRest | inAcc
      · exact .inl (List.mem_cons_of_mem _ inRest)
      · cases accepted with
        | false => exact .inr inAcc
        | true =>
          rcases List.mem_cons.mp inAcc with rfl | before
          · exact .inl List.mem_cons_self
          · exact .inr before
  refine bind (collects []) fun selected known => pure fun item member => ?_
  exact (known item (List.mem_reverse.mp member)).resolve_right List.not_mem_nil

end Eval.Yields

/-! ### Values alone -/

/-- Every value that an evaluation returns has a property. Nothing is said where it returns none. -/
def Eval.Returns (e : Eval α) (P : α → Prop) : Prop :=
  Run.Yields e.run fun outcome => ∀ a, outcome = .ok a → P a

namespace Eval.Returns

variable {P : α → Prop} {Q : β → Prop}

theorem pure {a : α} (holds : P a) : Eval.Returns (Pure.pure a) P := by
  refine Run.Yields.pure ?_
  rintro _ ⟨⟩
  exact holds

theorem throw {u : Unresolved} : Eval.Returns (MonadExcept.throw u : Eval α) P := by
  refine Run.Yields.pure ?_
  rintro _ ⟨⟩

theorem fail {failure : Failure} : Eval.Returns (Eval.fail failure : Eval α) P := throw

theorem any {e : Eval α} : e.Returns fun _ => True :=
  fun _ _ _ _ _ _ => trivial

theorem bind {e : Eval α} {next : α → Eval β} (first : e.Returns P)
    (later : ∀ a, P a → (next a).Returns Q) : (e >>= next).Returns Q := by
  refine Run.Yields.bind first fun outcome known => ?_
  cases outcome with
  | ok a => exact later a (known a rfl)
  | error u =>
    refine Run.Yields.pure ?_
    rintro _ ⟨⟩

theorem mono {P' : α → Prop} {e : Eval α} (returns : e.Returns P) (weaker : ∀ a, P a → P' a) :
    e.Returns P' :=
  Run.Yields.mono returns fun _ holds a value => weaker a (holds a value)

theorem lift {r : Run α} (yields : Run.Yields r P) :
    Eval.Returns (ExceptT.lift r : Eval α) P := by
  change Run.Yields (Except.ok <$> r) _
  rw [map_eq_pure_bind]
  refine yields.bind fun a holds => Run.Yields.pure ?_
  rintro _ ⟨⟩
  exact holds

/-- The results of a list have the property if that of each item has. -/
theorem mapM {f : α → Eval β} {items : List α} (each : ∀ item ∈ items, (f item).Returns Q) :
    (items.mapM f).Returns fun results => ∀ result ∈ results, Q result := by
  induction items with
  | nil =>
    rw [List.mapM_nil]
    exact pure (by simp)
  | cons item rest ih =>
    rw [List.mapM_cons]
    refine bind (each item List.mem_cons_self) fun result holds => ?_
    refine bind (ih fun item member => each item (List.mem_cons_of_mem _ member))
      fun results others => pure ?_
    exact List.forall_mem_cons.mpr ⟨holds, others⟩

end Eval.Returns

/-- Two properties of the results hold together. -/
theorem Run.Yields.and {r : Run α} {P Q : α → Prop} (first : Run.Yields r P)
    (second : Run.Yields r Q) : Run.Yields r fun a => P a ∧ Q a :=
  fun world world' a yields => ⟨first world world' a yields, second world world' a yields⟩

end Cascade
