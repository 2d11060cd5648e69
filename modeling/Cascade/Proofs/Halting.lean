import Cascade.Proofs.Yields

/-!
# Computations that come to an end

A computation whose steps are bounded has no answer if the bound is too small. Seen as a family over
the bound it halts if enough steps give it an answer, and if no other bound gives it another one. A
total postcondition says this, and that the answer has a property: the bound may depend on what the
world was like before, as the computation does. The rules are those of the partial postcondition.

## Main definitions

* `Run.Halts`, `Eval.Halts`: the postconditions.
* `Run.Terminates`: a computation that halts, whatever its answer.
* `Unbounded`: the bounds of a family grow beyond every number.

## Main statements

* `Run.Halts.bind`, `Eval.Halts.bind`: what halts, followed by what halts, halts.
* `Run.Halts.of_succ`: a first step may be granted apart.
-/

namespace Cascade

variable {α β : Type}

/-- For every world there is an answer with a property, which enough steps give and besides which no
number of steps gives another. -/
def Run.Halts (r : Nat → Run α) (P : α → Prop) : Prop :=
  ∀ world, ∃ a world', P a ∧
    (∀ steps, r steps world = none ∨ r steps world = some (a, world')) ∧
    ∃ enough, ∀ steps, enough ≤ steps → r steps world = some (a, world')

/-- For every world there is an answer that every number of steps gives, unless it gives none, and
that enough steps give. -/
def Run.Terminates (r : Nat → Run α) : Prop :=
  ∀ world, ∃ answer, (∀ steps, r steps world = none ∨ r steps world = some answer) ∧
    ∃ enough, ∀ steps, enough ≤ steps → r steps world = some answer

/-- The evaluation halts, with a value that has a property or an outcome that is explained. -/
def Eval.Halts (e : Nat → Eval α) (P : α → Prop) : Prop :=
  Run.Halts (fun steps => (e steps).run) (Explains P)

namespace Run.Halts

variable {P : α → Prop} {Q : β → Prop}

theorem pure {a : α} (holds : P a) : Run.Halts (fun _ => Pure.pure a) P :=
  fun world => ⟨a, world, holds, fun _ => .inr rfl, 0, fun _ _ => rfl⟩

theorem bind {r : Nat → Run α} {next : Nat → α → Run β} (first : Run.Halts r P)
    (later : ∀ a, P a → Run.Halts (fun steps => next steps a) Q) :
    Run.Halts (fun steps => r steps >>= next steps) Q := by
  intro world
  obtain ⟨a, middle, holds, sole, enough, answers⟩ := first world
  obtain ⟨b, world', holds', sole', enough', answers'⟩ := later a holds middle
  have after {steps : Nat} (answer : r steps world = some (a, middle)) :
      (r steps >>= next steps) world = next steps a middle := by
    change (r steps world).bind _ = _
    rw [answer]
    rfl
  refine ⟨b, world', holds', fun steps => ?_, max enough enough', fun steps large => ?_⟩
  · rcases sole steps with missing | answer
    · left
      change (r steps world).bind _ = _
      rw [missing]
      rfl
    · dsimp only
      rw [after answer]
      exact sole' steps
  · exact (after (answers steps (by omega))).trans (answers' steps (by omega))

theorem mono {P' : α → Prop} {r : Nat → Run α} (halts : Run.Halts r P)
    (weaker : ∀ a, P a → P' a) : Run.Halts r P' := by
  intro world
  obtain ⟨a, world', holds, rest⟩ := halts world
  exact ⟨a, world', weaker a holds, rest⟩

theorem terminates {r : Nat → Run α} (halts : Run.Halts r P) : Run.Terminates r := by
  intro world
  obtain ⟨a, world', -, sole, enough⟩ := halts world
  exact ⟨(a, world'), sole, enough⟩

/-- What every number of steps yields, the answer is, too. -/
theorem and_yields {r : Nat → Run α} {P' : α → Prop} (halts : Run.Halts r P)
    (yields : ∀ steps, Run.Yields (r steps) P') : Run.Halts r fun a => P a ∧ P' a := by
  intro world
  obtain ⟨a, world', holds, sole, enough, answers⟩ := halts world
  have answer := answers enough (Nat.le_refl _)
  exact ⟨a, world', ⟨holds, yields enough world world' a answer⟩, sole, enough, answers⟩

end Run.Halts

/-- The numbers of a sequence grow beyond every bound. -/
def Unbounded (steps : Nat → Nat) : Prop := ∀ bound, ∃ enough, ∀ n, enough ≤ n → bound ≤ steps n

theorem unbounded_id : Unbounded id := fun bound => ⟨bound, fun _ large => large⟩

theorem Unbounded.add {steps : Nat → Nat} (grows : Unbounded steps) (fixed : Nat) :
    Unbounded fun n => fixed + steps n := by
  intro bound
  obtain ⟨enough, large⟩ := grows bound
  exact ⟨enough, fun n later => Nat.le_add_left_of_le (large n later)⟩

theorem Unbounded.pred {steps : Nat → Nat} (grows : Unbounded steps) :
    Unbounded fun n => steps n - 1 := by
  intro bound
  obtain ⟨enough, large⟩ := grows (bound + 1)
  exact ⟨enough, fun n later => Nat.le_sub_one_of_lt (large n later)⟩

/-- A computation by recursion on its bound, which has no answer if the bound is zero, halts if one
step of it does. -/
theorem Run.Halts.of_succ {P : α → Prop} {r : Nat → Nat → Run α} {step : Nat → Nat → Run α}
    {bound : Nat → Nat} (zero : ∀ n, r n 0 = Run.exhausted)
    (succ : ∀ n fuel, r n (fuel + 1) = step n fuel) (grows : Unbounded bound)
    (halts : Run.Halts (fun n => step n (bound n - 1)) P) : Run.Halts (fun n => r n (bound n)) P := by
  intro world
  obtain ⟨a, world', holds, sole, enough, answers⟩ := halts world
  obtain ⟨positive, isPositive⟩ := grows 1
  have unfolded (n : Nat) (granted : 1 ≤ bound n) : r n (bound n) = step n (bound n - 1) := by
    rw [← succ, Nat.sub_add_cancel granted]
  refine ⟨a, world', holds, fun n => ?_, max enough positive, fun n large => ?_⟩
  · rcases Nat.eq_zero_or_pos (bound n) with spent | granted
    · left
      change r n (bound n) world = none
      rw [spent, zero]
      rfl
    · dsimp only
      rw [unfolded n granted]
      exact sole n
  · change r n (bound n) world = _
    rw [unfolded n (isPositive n (by omega))]
    exact answers n (by omega)

namespace Eval.Halts

variable {P : α → Prop} {Q : β → Prop}

theorem pure {a : α} (holds : P a) : Eval.Halts (fun _ => Pure.pure a) P :=
  Run.Halts.pure (P := Explains P) (a := .ok a) holds

theorem throw {u : Unresolved} (explained : u.IsExplained) :
    Eval.Halts (fun _ => (MonadExcept.throw u : Eval α)) P :=
  Run.Halts.pure (P := Explains P) (a := .error u) explained

theorem bind {e : Nat → Eval α} {next : Nat → α → Eval β} (first : Eval.Halts e P)
    (later : ∀ a, P a → Eval.Halts (fun steps => next steps a) Q) :
    Eval.Halts (fun steps => e steps >>= next steps) Q := by
  refine Run.Halts.bind first fun outcome holds => ?_
  cases outcome with
  | ok a => exact later a holds
  | error u => exact Run.Halts.pure (P := Explains Q) (a := .error u) holds

theorem mono {P' : α → Prop} {e : Nat → Eval α} (halts : Eval.Halts e P)
    (weaker : ∀ a, P a → P' a) : Eval.Halts e P' := by
  refine Run.Halts.mono halts fun outcome holds => ?_
  cases outcome with
  | ok a => exact weaker a holds
  | error u => exact holds

theorem fail {failure : Failure} : Eval.Halts (fun _ => (Eval.fail failure : Eval α)) P :=
  throw rfl

theorem mismatch {expected : String} {found : Value} :
    Eval.Halts (fun _ => (Eval.mismatch expected found : Eval α)) P := fail

theorem ofOutcome {outcome : Except Unresolved α} (holds : Explains P outcome) :
    Eval.Halts (fun _ => Eval.ofOutcome outcome) P :=
  Run.Halts.pure holds

theorem ofFailing {outcome : Except Failure α} (holds : ∀ a, outcome = .ok a → P a) :
    Eval.Halts (fun _ => Eval.ofFailing outcome) P := by
  cases outcome with
  | ok a => exact pure (holds a rfl)
  | error failure => exact fail

theorem lift {r : Nat → Run α} (halts : Run.Halts r P) :
    Eval.Halts (fun steps => (ExceptT.lift (r steps) : Eval α)) P := by
  change Run.Halts (fun steps => Except.ok <$> r steps) (Explains P)
  simp only [map_eq_pure_bind]
  exact halts.bind fun a holds => Run.Halts.pure (P := Explains P) (a := .ok a) holds

/-- An outcome that is observed has the property, or it is explained. -/
theorem outcome {e : Nat → Eval α} (halts : Eval.Halts e P) :
    Eval.Halts (fun steps => (e steps).outcome) (Explains P) := by
  change Run.Halts (fun steps => Except.ok <$> (e steps).run) (Explains (Explains P))
  simp only [map_eq_pure_bind]
  exact Run.Halts.bind halts fun a holds =>
    Run.Halts.pure (P := Explains (Explains P)) (a := .ok a) holds

/-- The results of a list have the property if that of each item has. -/
theorem mapM {f : Nat → α → Eval β} {items : List α}
    (each : ∀ item ∈ items, Eval.Halts (fun steps => f steps item) Q) :
    Eval.Halts (fun steps => items.mapM (f steps)) fun results => ∀ result ∈ results, Q result := by
  induction items with
  | nil =>
    simp only [List.mapM_nil]
    exact pure (by simp)
  | cons item rest ih =>
    simp only [List.mapM_cons]
    refine bind (each item List.mem_cons_self) fun result holds => ?_
    refine bind (ih fun item member => each item (List.mem_cons_of_mem _ member))
      fun results others => pure ?_
    exact List.forall_mem_cons.mpr ⟨holds, others⟩

/-- The results of a list that are not left out have the property if that of each item has. -/
theorem filterMapM {f : Nat → α → Eval (Option β)} {items : List α}
    (each : ∀ item ∈ items,
      Eval.Halts (fun steps => f steps item) fun result => ∀ b ∈ result, Q b) :
    Eval.Halts (fun steps => items.filterMapM (f steps)) fun results =>
      ∀ result ∈ results, Q result := by
  induction items with
  | nil =>
    simp only [List.filterMapM_nil]
    exact pure (by simp)
  | cons item rest ih =>
    have others := ih fun item member => each item (List.mem_cons_of_mem _ member)
    simp only [List.filterMapM_cons]
    refine bind (each item List.mem_cons_self) fun result holds => ?_
    cases result with
    | none => exact others
    | some b =>
      exact bind others fun results known => pure (List.forall_mem_cons.mpr ⟨holds b rfl, known⟩)

/-- An accumulator keeps a property that every step keeps. -/
theorem foldlM {f : Nat → β → α → Eval β} {items : List α} {start : β} (holds : Q start)
    (step : ∀ acc item, Q acc → item ∈ items → Eval.Halts (fun steps => f steps acc item) Q) :
    Eval.Halts (fun steps => items.foldlM (f steps) start) Q := by
  induction items generalizing start with
  | nil => exact pure holds
  | cons item rest ih =>
    simp only [List.foldlM_cons]
    refine bind (step start item holds List.mem_cons_self) fun acc known => ?_
    exact ih known fun acc item known member => step acc item known (List.mem_cons_of_mem _ member)

/-- What a test selects is a part of the list. -/
theorem filterM {test : Nat → α → Eval Bool} {items : List α}
    (each : ∀ item ∈ items, Eval.Halts (fun steps => test steps item) fun _ => True) :
    Eval.Halts (fun steps => items.filterM (test steps)) fun selected =>
      selected.Sublist items := by
  have collects : ∀ acc, Eval.Halts (fun steps => List.filterAuxM (test steps) items acc)
      fun selected => ∃ part : List α, part.Sublist items ∧ selected = part.reverse ++ acc := by
    induction items with
    | nil => exact fun acc => pure ⟨[], .slnil, rfl⟩
    | cons first rest ih =>
      intro acc
      refine bind (each first List.mem_cons_self) fun accepted _ => ?_
      have later := ih (fun item member => each item (List.mem_cons_of_mem _ member))
        (cond accepted (first :: acc) acc)
      refine later.mono fun selected known => ?_
      obtain ⟨part, inRest, rfl⟩ := known
      cases accepted with
      | false => exact ⟨part, inRest.cons _, rfl⟩
      | true => exact ⟨first :: part, inRest.cons_cons _, by simp⟩
  refine bind (collects []) fun selected known => pure ?_
  obtain ⟨part, inItems, rfl⟩ := known
  simpa using inItems

end Eval.Halts

end Cascade
