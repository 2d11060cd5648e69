import Cascade.Flow.Report
import Cascade.Proofs.Operands
import Cascade.Proofs.SimpleValues

/-!
# Ordinary expressions

An ordinary expression computes with literals, references and operators; it calls nothing, asks for
neither stubs nor its place, and makes no lambda or template. It is evaluated without effect, to a
simple value.

Whether an ordinary expression waits, fails or has a value depends on its references alone. When the
references advance from one snapshot to a later one, so does the expression: a value is final, a
failure stays a failure of its kind, and what waits may become anything. In particular an expression
waits only if one of its references does.

## Main definitions

* `Expr.isOrdinary`.
* `Unresolved.kind`: whether an outcome is a failure, depends on one, or waits.
* `Advances`: outcomes over an earlier and a later snapshot.
* `IsHandedOn`, `Eval.Related`: relations of outcomes, and evaluations whose outcomes are related.

## Main statements

* `evaluate_related`: the outcomes of an ordinary expression are related as those of its references
  are.
-/

namespace Cascade

open Eval

variable {α β : Type} {grade : Unresolved → UnresolvedKind} {may blocked : Prop}

/-! ### Outcomes over two snapshots -/

/-- Why there is no value. -/
def Unresolved.kind (u : Unresolved) : UnresolvedKind :=
  if u.isError then .localError else if u.info.failed then .dependsOnError else .unresolved

theorem Unresolved.kind_eq_localError_iff {u : Unresolved} :
    u.kind = .localError ↔ u.isError = true := by
  cases u with
  | error info => exact ⟨fun _ => rfl, fun _ => rfl⟩
  | pending info =>
    refine ⟨fun failed => ?_, nofun⟩
    unfold kind at failed
    split at failed
    · assumption
    · split at failed <;> cases failed

/-- A grade of outcomes without a value, which tells failures from the rest. -/
class IsGrade (grade : Unresolved → UnresolvedKind) : Prop where
  localError_iff : ∀ u, grade u = .localError ↔ u.isError = true

instance : IsGrade Unresolved.kind := ⟨fun _ => Unresolved.kind_eq_localError_iff⟩

/-- Failures do not wait. -/
theorem IsGrade.ne_unresolved_of_isError [IsGrade grade] {u : Unresolved}
    (fails : u.isError = true) : grade u ≠ .unresolved := by
  intro waits
  have failed := (IsGrade.localError_iff u : grade u = _ ↔ _).mpr fails
  rw [waits] at failed
  cases failed

/-- How an outcome goes on in a later snapshot. A value is final and a failure stays one of its
grade; what waits may become anything. Nothing changes unless it `may`, and what waits is `blocked`.
-/
inductive Advances (grade : Unresolved → UnresolvedKind) (may blocked : Prop) :
    Except Unresolved α → Except Unresolved α → Prop
  | value (a : α) : Advances grade may blocked (.ok a) (.ok a)
  | same (u : Unresolved) (waits : grade u = .unresolved → blocked) :
    Advances grade may blocked (.error u) (.error u)
  | failing {u u' : Unresolved} (changes : may) (fails : grade u ≠ .unresolved)
    (alike : grade u' = grade u) : Advances grade may blocked (.error u) (.error u')
  | waiting {u : Unresolved} (changes : may) (waits : grade u = .unresolved) (why : blocked)
    (next : Except Unresolved α) : Advances grade may blocked (.error u) next

namespace Advances

variable {o o' : Except Unresolved α}

/-- Without a change the outcomes are equal. -/
theorem eq_of_not (advances : Advances grade may blocked o o') (still : ¬may) : o' = o := by
  cases advances with
  | value a => rfl
  | same u waits => rfl
  | failing changes fails alike => exact absurd changes still
  | waiting changes waits why next => exact absurd changes still

end Advances

/-- A relation of outcomes that operators hand on from their operands: a value stays, a failure is
related to itself, and an outcome without a value is related to one of its sort, or it is pending
and may become anything. -/
class IsHandedOn (R : {α : Type} → Except Unresolved α → Except Unresolved α → Prop) : Prop where
  value : ∀ {α : Type} (a : α), R (.ok a) (.ok a)
  failure : ∀ {α : Type} (failure : Failure),
    R (.error (.ofFailure failure) : Except Unresolved α) (.error (.ofFailure failure))
  eq_of_ok : ∀ {α : Type} {a : α} {o : Except Unresolved α}, R (.ok a) o → o = .ok a
  error : ∀ {α : Type} {u : Unresolved} {o : Except Unresolved α}, R (.error u) o →
    (∃ u', o = .error u' ∧ u'.isError = u.isError ∧
      ∀ β, R (.error u : Except Unresolved β) (.error u')) ∨
    u.isError = false ∧ ∀ β (next : Except Unresolved β), R (.error u) next

instance [IsGrade grade] : IsHandedOn (Advances grade may blocked) where
  value a := .value a
  failure failure := .same _ fun waits =>
    absurd waits (IsGrade.ne_unresolved_of_isError (u := .ofFailure failure) rfl)
  eq_of_ok related := by
    cases related
    rfl
  error {α u o} related := by
    cases related with
    | same u waits => exact .inl ⟨u, rfl, rfl, fun _ => .same u waits⟩
    | @failing _ u' changes fails alike =>
      have failed (u : Unresolved) : u.isError = true ↔ grade u = .localError :=
        (IsGrade.localError_iff u).symm
      refine .inl ⟨u', rfl, ?_, fun _ => .failing changes fails alike⟩
      rw [Bool.eq_iff_iff, failed, failed, alike]
    | waiting changes waits why =>
      refine .inr ⟨?_, fun _ => .waiting changes waits why⟩
      rw [← Bool.not_eq_true]
      exact fun fails => IsGrade.ne_unresolved_of_isError fails waits

namespace Eval

variable {R : {α : Type} → Except Unresolved α → Except Unresolved α → Prop}

/-- Two evaluations without effect, the outcome of the first one being related to that of the
second. Their values have a property. -/
def Related (R : {α : Type} → Except Unresolved α → Except Unresolved α → Prop) (P : α → Prop)
    (x x' : Eval α) : Prop :=
  ∃ o o', x = ofOutcome o ∧ x' = ofOutcome o' ∧ R o o' ∧
    (∀ a, o = .ok a → P a) ∧ ∀ a, o' = .ok a → P a

namespace Related

variable {P : α → Prop} {Q : β → Prop}

theorem forall_value_of_error {u : Unresolved} (a : α) (absurd : .error u = Except.ok a) : P a :=
  nomatch absurd

theorem of_errors {u u' : Unresolved} (related : R (.error u : Except Unresolved α) (.error u')) :
    Related R P (ofOutcome (.error u)) (ofOutcome (.error u')) :=
  ⟨_, _, rfl, rfl, related, forall_value_of_error, forall_value_of_error⟩

theorem ofOutcome_bind {o : Except Unresolved α} {f : α → Eval β} :
    ofOutcome o >>= f = match o with
      | .ok a => f a
      | .error u => ofOutcome (.error u) := by
  cases o <;> rfl

variable [IsHandedOn R]

theorem pure {a : α} (known : P a) : Related R P (Pure.pure a) (Pure.pure a) :=
  ⟨.ok a, .ok a, rfl, rfl, IsHandedOn.value a, by rintro _ ⟨⟩; exact known,
    by rintro _ ⟨⟩; exact known⟩

theorem fail {failure : Failure} : Related R P (Eval.fail failure) (Eval.fail failure) :=
  of_errors (IsHandedOn.failure failure)

theorem ofFailing {o : Except Failure α} (known : ∀ a, o = .ok a → P a) :
    Related R P (Eval.ofFailing o) (Eval.ofFailing o) := by
  cases o with
  | ok a => exact pure (known a rfl)
  | error failure => exact fail

/-- What has no value keeps its outcome. -/
theorem bind {x x' : Eval α} {f f' : α → Eval β} (first : Related R P x x')
    (next : ∀ a, P a → Related R Q (f a) (f' a)) : Related R Q (x >>= f) (x' >>= f') := by
  obtain ⟨o, o', rfl, rfl, related, known, known'⟩ := first
  rw [ofOutcome_bind, ofOutcome_bind]
  cases o with
  | ok a =>
    obtain rfl := IsHandedOn.eq_of_ok related
    exact next a (known a rfl)
  | error u =>
    rcases IsHandedOn.error related with ⟨u', rfl, -, stays⟩ | ⟨-, anything⟩
    · exact of_errors (stays β)
    · cases o' with
      | error u' => exact of_errors (anything β _)
      | ok a =>
        obtain ⟨-, later, -, same, -, -, known⟩ := next a (known' a rfl)
        exact ⟨_, later, rfl, same, anything β _, forall_value_of_error, known⟩

theorem mapM {items : List β} {f f' : β → Eval α}
    (each : ∀ item ∈ items, Related R P (f item) (f' item)) :
    Related R (fun results => ∀ a ∈ results, P a) (items.mapM f) (items.mapM f') := by
  induction items with
  | nil => exact pure (by simp)
  | cons item rest ih =>
    rw [List.mapM_cons, List.mapM_cons]
    refine (each item List.mem_cons_self).bind fun a known => ?_
    refine (ih fun item member => each item (List.mem_cons_of_mem _ member)).bind ?_
    intro others inside
    exact pure (List.forall_mem_cons.mpr ⟨known, inside⟩)

/-- What `||` makes of the outcome of its left operand. -/
def fallbackFrom (left : Except Unresolved Resolved) (right : Eval Resolved) : Eval Resolved :=
  match left with
  | .ok resolved => if resolved.info.undefined then right else Pure.pure resolved
  | .error (.error _) => right
  | .error (.pending info) => ofOutcome (.error (.pending info))

theorem fallback_eq {o : Except Unresolved Resolved} {right : Eval Resolved} :
    (do match ← (ofOutcome o).outcome with
        | .ok resolved => if resolved.info.undefined then right else return resolved
        | .error (.error _) => right
        | .error (.pending info) => throw (.pending info)) = fallbackFrom o right := by
  rcases o with (_ | _) | _ <;> rfl

/-- The right operand counts where the left one failed or is absent. -/
theorem fallback {P : Resolved → Prop} {x x' y y' : Eval Resolved}
    (left : Related R P x x') (right : Related R P y y') :
    Related R P
      (do match ← x.outcome with
          | .ok resolved => if resolved.info.undefined then y else return resolved
          | .error (.error _) => y
          | .error (.pending info) => throw (.pending info))
      (do match ← x'.outcome with
          | .ok resolved => if resolved.info.undefined then y' else return resolved
          | .error (.error _) => y'
          | .error (.pending info) => throw (.pending info)) := by
  obtain ⟨o, o', rfl, rfl, related, known, known'⟩ := left
  rw [fallback_eq, fallback_eq]
  cases o with
  | ok a =>
    obtain rfl := IsHandedOn.eq_of_ok related
    unfold fallbackFrom
    dsimp only
    split
    · exact right
    · exact pure (known a rfl)
  | error u =>
    rcases IsHandedOn.error related with ⟨u', rfl, alike, stays⟩ | ⟨pending, anything⟩
    · cases u with
      | error info =>
        cases u' with
        | error info' => exact right
        | pending info' => cases alike
      | pending info =>
        cases u' with
        | error info' => cases alike
        | pending info' => exact of_errors (stays Resolved)
    · cases u with
      | error info => cases pending
      | pending info =>
        obtain ⟨-, later, -, rfl, -, -, inside⟩ := right
        rcases o' with (_ | info') | resolved
        · exact of_errors (anything Resolved _)
        · exact ⟨_, later, rfl, rfl, anything _ _, forall_value_of_error, inside⟩
        · by_cases absent : resolved.info.undefined = true
          · exact ⟨_, later, rfl, if_pos absent, anything _ _, forall_value_of_error, inside⟩
          · exact ⟨_, .ok resolved, rfl, if_neg absent, anything _ _, forall_value_of_error,
              known'⟩

end Related

end Eval

/-! ### Computing with simple values -/

section

variable {R : {α : Type} → Except Unresolved α → Except Unresolved α → Prop} [IsHandedOn R]

/-- A simple value, with nothing noted but that it may be absent. -/
structure Resolved.IsSimple (r : Resolved) : Prop where
  value : r.value.isSimple = true
  info : r.info = {} ∨ r.info = { undefined := true }

theorem Resolved.isSimple_ofValue {value : Value} (simple : value.isSimple = true) :
    (Resolved.ofValue value).IsSimple := ⟨simple, .inl rfl⟩

/-- The node of a simple value is simple. -/
theorem Resolved.IsSimple.toNode {r : Resolved} (simple : r.IsSimple) (source : String) :
    (r.toNode source).isSimple = true := by
  rw [Node.isSimple_iff]
  refine ⟨?_, simple.value⟩
  rcases simple.info with noted | noted <;> rw [Resolved.toNode, noted] <;> rfl

theorem expectInt_related {value : Value} :
    Related R (fun _ => True) (expectInt value) (expectInt value) := by
  unfold expectInt
  split
  · exact .pure trivial
  · exact .fail

theorem expectList_related {value : Value} (simple : value.isSimple = true) :
    Related R (fun items => ∀ item ∈ items, item.isSimple = true)
      (expectList value) (expectList value) := by
  unfold expectList
  split
  · exact .pure (Value.isSimple_list.mp simple)
  · exact .fail

theorem expectElements_related {value : Value} (simple : value.isSimple = true) :
    Related R (fun items => ∀ item ∈ items, item.isSimple = true)
      (expectElements value) (expectElements value) := by
  unfold expectElements
  split
  · exact .pure (List.forall_mem_map.mpr fun field member =>
      (Value.isSimple_map.mp simple field member).2)
  · exact expectList_related simple

theorem indexPath_related {index : Value} :
    Related R (fun _ => True) (indexPath index) (indexPath index) := by
  unfold indexPath
  split
  · exact .pure trivial
  · exact .pure trivial
  · split
    · exact .pure trivial
    · exact .fail
  · exact .fail

theorem descend_related {defaultKey : String} {node : Node} {seen path : List String}
    (simple : node.isSimple = true) :
    Related R (fun found => found.isSimple = true)
      (descend defaultKey node seen path) (descend defaultKey node seen path) := by
  induction path generalizing node seen with
  | nil => exact .pure simple
  | cons segment rest ih =>
    rw [descend]
    split
    · next next step => exact ih (Node.isSimple_of_stepBy? simple step)
    · exact .fail

theorem navigate_related {defaultKey source : String} {value : Value} {path : List String}
    (simple : value.isSimple = true) :
    Related R Resolved.IsSimple (navigate defaultKey source value path)
      (navigate defaultKey source value path) := by
  refine (descend_related (Node.isSimple_plain.mpr simple)).bind fun node known => ?_
  rw [nodeValue_of_isSimple known]
  exact .pure (Resolved.isSimple_ofValue (Node.isSimple_iff.mp known).2)

theorem sliceItems_related {items : List Node} {start stop : Option Int64}
    (simple : ∀ item ∈ items, item.isSimple = true) :
    Related R Resolved.IsSimple (sliceItems items start stop)
      (sliceItems items start stop) := by
  unfold sliceItems
  split
  · refine .pure (Resolved.isSimple_ofValue (Value.isSimple_list.mpr fun item member => ?_))
    exact simple item (List.mem_of_mem_take (List.mem_of_mem_drop member))
  · exact .fail

end

/-! ### Ordinary expressions -/

namespace Expr

/-- The form is a literal, a reference without tag or an operator. In its texts no bracket opens,
and its keys are those of plain fields. Its number is not a NaN, which no text is read as. -/
def isOrdinaryPart : Expr → Bool
  | .float x => x == x
  | .string s => isBare s
  | .reference r => r.tag.isNone
  | .map entries => entries.all fun entry => (controlSuffix? entry.1).isNone
  | .call _ _ => false
  | .intrinsic _ _ => false
  | .curry _ _ => false
  | .lambda _ => false
  | .merge _ => false
  | .auto => false
  | .marked _ _ => false
  | .prefer _ => false
  | .substitution _ => false
  | _ => true

/-- The form is that of a part of an ordinary expression, or a reference of any form. -/
def isPlainPart : Expr → Bool
  | .reference _ => true
  | e => e.isOrdinaryPart

theorem isPlainPart_of_isOrdinaryPart {e : Expr} (ordinary : e.isOrdinaryPart = true) :
    e.isPlainPart = true := by
  cases e with
  | reference r => rfl
  | _ => exact ordinary

/-- The expression consists of literals, references without tag and operators. -/
def isOrdinary (e : Expr) : Bool := e.walk.all isOrdinaryPart

theorem isOrdinary_iff {e : Expr} : e.isOrdinary = true ↔ ∀ part ∈ e.walk, part.isOrdinaryPart := by
  rw [isOrdinary, List.all_eq_true]

/-- No marker stands at the top of an expression of plain parts. -/
theorem staticInfo_of_isPlainPart {e : Expr} (plain : ∀ part ∈ e.walk, part.isPlainPart = true) :
    e.staticInfo = {} := by
  have unmarked : e.markers = [] := by
    induction e using Expr.markers.induct with
    | case1 inner ih =>
      rw [markers]
      exact ih (forall_walk_single plain rfl)
    | case2 ms => exact nomatch (forall_walk_iff.mp plain).1
    | case3 ms inner ih => exact nomatch (forall_walk_iff.mp plain).1
    | case4 e notGrouped bare marked => rw [markers] <;> assumption
  rw [staticInfo, unmarked]
  rfl

/-- No marker stands at the top of an ordinary expression. -/
theorem staticInfo_of_isOrdinary {e : Expr} (ordinary : e.isOrdinary) : e.staticInfo = {} :=
  staticInfo_of_isPlainPart fun part member =>
    isPlainPart_of_isOrdinaryPart (isOrdinary_iff.mp ordinary part member)

/-- An expression of plain parts looks like itself: its numbers are numbers. -/
theorem same_self_of_isPlainPart {e : Expr} (plain : ∀ part ∈ e.walk, part.isPlainPart = true) :
    e.same e = true := by
  induction e using operandInduction with
  | step e ih =>
    obtain ⟨known, below⟩ := forall_walk_iff.mp plain
    have each : ∀ operand ∈ e.operands, operand.same operand = true := fun operand member =>
      ih operand member (below operand member)
    clear ih below plain
    cases e with
    | float x =>
      rw [same]
      exact known
    | list items =>
      rw [same]
      clear known
      induction items with
      | nil => rw [sameList]
      | cons item rest ih => simp_all [operands, sameList]
    | map entries =>
      rw [same]
      clear known
      induction entries with
      | nil => rw [sameEntries]
      | cons entry rest ih =>
        obtain ⟨key, e⟩ := entry
        simp_all [operands, sameEntries]
    | slice base start stop => cases start <;> cases stop <;> simp_all [operands, same, sameOption]
    | call callee args => cases known
    | intrinsic id args => cases known
    | curry callee args => cases known
    | lambda l => cases known
    | marked ms inner => cases known
    | _ => simp_all [operands, same]

theorem same_self_of_isOrdinary {e : Expr} (ordinary : e.isOrdinary) : e.same e = true :=
  same_self_of_isPlainPart fun part member =>
    isPlainPart_of_isOrdinaryPart (isOrdinary_iff.mp ordinary part member)

/-- At two places, a part of an ordinary expression has related outcomes if it is a reference. -/
structure Follows (R : {α : Type} → Except Unresolved α → Except Unresolved α → Prop)
    (engine : Engine) (b b' : Binding) (part : Expr) : Prop where
  plain : part.isPlainPart = true
  reference : ∀ r, part = .reference r → Related R Resolved.IsSimple
    (ofOutcome (r.resolve b.scope engine.defaultKey false))
    (ofOutcome (r.resolve b'.scope engine.defaultKey false))

end Expr

section

variable {R : {α : Type} → Except Unresolved α → Except Unresolved α → Prop} [IsHandedOn R]
  {engine : Engine} {deeper deeper' : Deeper} {b b' : Binding}

mutual

/-- The outcomes of an ordinary expression are related as those of its references are. Its value is
simple if it has any. -/
theorem evaluate_related (place : b'.source = b.source) : ∀ e : Expr,
    (∀ part ∈ e.walk, part.Follows R engine b b') →
    Related R Resolved.IsSimple (evaluate engine deeper e b)
      (evaluate engine deeper' e b')
  | .nil, _ => by
    rw [evaluate, evaluate]
    exact .pure (Resolved.isSimple_ofValue rfl)
  | .undefined, _ => by
    rw [evaluate, evaluate]
    exact .pure ⟨rfl, .inr rfl⟩
  | .bool _, _ => by
    rw [evaluate, evaluate]
    exact .pure (Resolved.isSimple_ofValue rfl)
  | .int _, _ => by
    rw [evaluate, evaluate]
    exact .pure (Resolved.isSimple_ofValue rfl)
  | .float _, _ => by
    rw [evaluate, evaluate]
    exact .pure (Resolved.isSimple_ofValue rfl)
  | .string s, follows => by
    rw [evaluate, evaluate]
    exact .pure (Resolved.isSimple_ofValue (Expr.forall_walk_iff.mp follows).1.plain)
  | .reference r, follows => by
    rw [evaluate, evaluate]
    exact (Expr.forall_walk_iff.mp follows).1.reference r rfl
  | .grouped inner, follows => by
    rw [evaluate, evaluate]
    exact evaluate_related place inner (Expr.forall_walk_single follows rfl)
  | .arithmetic op lhs rhs, follows => by
    obtain ⟨left, right⟩ := Expr.forall_walk_pair follows rfl
    rw [evaluate, evaluate]
    refine (evaluate_related place lhs left).bind fun lhs _ => ?_
    refine (evaluate_related place rhs right).bind fun rhs _ => ?_
    refine (Related.ofFailing fun value => isSimple_of_arithmetic).bind fun value simple => ?_
    exact .pure (Resolved.isSimple_ofValue simple)
  | .concatenation lhs rhs, follows => by
    obtain ⟨left, right⟩ := Expr.forall_walk_pair follows rfl
    rw [evaluate, evaluate, place]
    refine (evaluate_related place lhs left).bind fun lhs known => ?_
    refine (evaluate_related place rhs right).bind fun rhs known' => ?_
    refine (Related.ofFailing fun value =>
      isSimple_of_concatenate known.value known'.value).bind fun value simple => ?_
    exact .pure (Resolved.isSimple_ofValue simple)
  | .comparison op lhs rhs, follows => by
    obtain ⟨left, right⟩ := Expr.forall_walk_pair follows rfl
    rw [evaluate, evaluate]
    refine (evaluate_related place lhs left).bind fun lhs _ => ?_
    refine (evaluate_related place rhs right).bind fun rhs _ => ?_
    refine (Related.ofFailing fun value _ => trivial).bind fun value _ => ?_
    exact .pure (Resolved.isSimple_ofValue rfl)
  | .fallback lhs rhs, follows => by
    obtain ⟨left, right⟩ := Expr.forall_walk_pair follows rfl
    rw [evaluate, evaluate]
    exact (evaluate_related place lhs left).fallback (evaluate_related place rhs right)
  | .logical op lhs rhs, follows => by
    obtain ⟨left, right⟩ := Expr.forall_walk_pair follows rfl
    rw [evaluate, evaluate]
    refine (evaluate_related place lhs left).bind fun lhs _ => ?_
    simp only
    split
    · exact .pure (Resolved.isSimple_ofValue rfl)
    · exact .pure (Resolved.isSimple_ofValue rfl)
    · refine (evaluate_related place rhs right).bind fun rhs _ => ?_
      exact .pure (Resolved.isSimple_ofValue rfl)
  | .not operand, follows => by
    rw [evaluate, evaluate]
    have inside := Expr.forall_walk_single follows rfl
    refine (evaluate_related place operand inside).bind fun value _ => ?_
    exact .pure (Resolved.isSimple_ofValue rfl)
  | .conditional condition onTrue onFalse, follows => by
    have follows := (Expr.forall_walk_iff.mp follows).2
    rw [evaluate, evaluate]
    have asked := follows condition (by simp [Expr.operands])
    refine (evaluate_related place condition asked).bind fun value _ => ?_
    split
    · exact evaluate_related place onTrue (follows _ (by simp [Expr.operands]))
    · exact evaluate_related place onFalse (follows _ (by simp [Expr.operands]))
  | .list items, follows => by
    rw [evaluate, evaluate]
    refine (evaluateItems_related place items (Expr.forall_walk_iff.mp follows).2).bind
      fun nodes simple => ?_
    exact .pure (Resolved.isSimple_ofValue (Value.isSimple_list.mpr simple))
  | .range start stop, follows => by
    obtain ⟨first, last⟩ := Expr.forall_walk_pair follows rfl
    rw [evaluate, evaluate, place]
    refine (evaluate_related place start first).bind fun value _ => ?_
    refine expectInt_related.bind fun low _ => ?_
    refine (evaluate_related place stop last).bind fun value _ => ?_
    refine expectInt_related.bind fun high _ => ?_
    refine .pure (Resolved.isSimple_ofValue (Value.isSimple_list.mpr fun item member => ?_))
    obtain ⟨n, -, rfl⟩ := List.mem_map.mp member
    rfl
  | .map entries, follows => by
    obtain ⟨known, follows⟩ := Expr.forall_walk_iff.mp follows
    have plain : ∀ entry ∈ entries, controlSuffix? entry.1 = none := by
      simpa [Expr.isPlainPart, Expr.isOrdinaryPart] using known.plain
    rw [evaluate, evaluate]
    refine (evaluateEntries_related place entries plain (List.forall_mem_map.mp follows)).bind
      fun fields simple => ?_
    exact .pure (Resolved.isSimple_ofValue (Value.isSimple_map.mpr fun field member =>
      simple field (Fields.mem_ofList member)))
  | .dynamic base index, follows => by
    obtain ⟨inside, path⟩ := Expr.forall_walk_pair follows rfl
    rw [evaluate, evaluate, place]
    refine (evaluate_related place base inside).bind fun value simple => ?_
    refine (evaluate_related place index path).bind fun position _ => ?_
    exact indexPath_related.bind fun path _ => navigate_related simple.value
  | .slice base start stop, follows => by
    have follows := (Expr.forall_walk_iff.mp follows).2
    rw [evaluate, evaluate]
    have sliced := follows base (by simp [Expr.operands])
    refine (evaluate_related place base sliced).bind fun value simple => ?_
    refine (evaluateBound_related place start fun e member =>
      follows e (by simp [Expr.operands, Option.mem_toList.mp member])).bind fun low _ => ?_
    refine (evaluateBound_related place stop fun e member =>
      follows e (by simp [Expr.operands, Option.mem_toList.mp member])).bind fun high _ => ?_
    exact (expectList_related simple.value).bind fun items inside => sliceItems_related inside
  | .projection base path, follows => by
    have inside := Expr.forall_walk_single follows rfl
    rw [evaluate, evaluate, place]
    refine (evaluate_related place base inside).bind fun value simple => ?_
    refine (expectElements_related simple.value).bind fun elements inside => ?_
    refine (Related.mapM fun element member => ?_).bind fun nodes known =>
      .pure (Resolved.isSimple_ofValue (Value.isSimple_list.mpr known))
    have whole := (Node.isSimple_iff.mp (inside element member)).2
    exact (navigate_related whole).bind fun r known => .pure (known.toNode _)
  | .qualified base path, follows => by
    have inside := Expr.forall_walk_single follows rfl
    rw [evaluate, evaluate, place]
    refine (evaluate_related place base inside).bind fun value simple => ?_
    exact navigate_related simple.value
  | .call _ _, follows => nomatch (Expr.forall_walk_iff.mp follows).1.plain
  | .intrinsic _ _, follows => nomatch (Expr.forall_walk_iff.mp follows).1.plain
  | .curry _ _, follows => nomatch (Expr.forall_walk_iff.mp follows).1.plain
  | .lambda _, follows => nomatch (Expr.forall_walk_iff.mp follows).1.plain
  | .merge _, follows => nomatch (Expr.forall_walk_iff.mp follows).1.plain
  | .auto, follows => nomatch (Expr.forall_walk_iff.mp follows).1.plain
  | .marked _ _, follows => nomatch (Expr.forall_walk_iff.mp follows).1.plain
  | .prefer _, follows => nomatch (Expr.forall_walk_iff.mp follows).1.plain
  | .substitution _, follows => nomatch (Expr.forall_walk_iff.mp follows).1.plain

theorem evaluateItems_related (place : b'.source = b.source) : ∀ items : List Expr,
    (∀ item ∈ items, ∀ part ∈ item.walk, part.Follows R engine b b') →
    Related R (fun nodes => ∀ node ∈ nodes, node.isSimple = true)
      (evaluateItems engine deeper items b) (evaluateItems engine deeper' items b')
  | [], _ => by
    rw [evaluateItems, evaluateItems]
    exact .pure (by simp)
  | e :: rest, follows => by
    obtain ⟨first, others⟩ := List.forall_mem_cons.mp follows
    rw [evaluateItems, evaluateItems, place]
    refine (evaluate_related place e first).bind fun r known => ?_
    refine (evaluateItems_related place rest others).bind fun nodes inside => ?_
    refine .pure ?_
    split
    · exact inside
    · exact List.forall_mem_cons.mpr ⟨known.toNode _, inside⟩

theorem evaluateEntries_related (place : b'.source = b.source) :
    ∀ entries : List (String × Expr),
    (∀ entry ∈ entries, controlSuffix? entry.1 = none) →
    (∀ entry ∈ entries, ∀ part ∈ entry.2.walk, part.Follows R engine b b') →
    Related R
      (fun fields => ∀ field ∈ fields, controlSuffix? field.1 = none ∧ field.2.isSimple = true)
      (evaluateEntries engine deeper entries b) (evaluateEntries engine deeper' entries b')
  | [], _, _ => by
    rw [evaluateEntries, evaluateEntries]
    exact .pure (by simp)
  | (key, e) :: rest, plain, follows => by
    obtain ⟨first, others⟩ := List.forall_mem_cons.mp follows
    obtain ⟨name, names⟩ := List.forall_mem_cons.mp plain
    rw [evaluateEntries, evaluateEntries, place]
    refine (evaluate_related place e first).bind fun r known => ?_
    refine (evaluateEntries_related place rest names others).bind fun fields inside => ?_
    refine .pure ?_
    split
    · exact inside
    · exact List.forall_mem_cons.mpr ⟨⟨name, known.toNode _⟩, inside⟩

theorem evaluateBound_related (place : b'.source = b.source) :
    ∀ bound : Option Expr,
    (∀ e ∈ bound.toList, ∀ part ∈ e.walk, part.Follows R engine b b') →
    Related R (fun _ => True) (evaluateBound engine deeper bound b)
      (evaluateBound engine deeper' bound b')
  | none, _ => by
    rw [evaluateBound, evaluateBound]
    exact .pure trivial
  | some e, follows => by
    rw [evaluateBound, evaluateBound]
    refine (evaluate_related place e (follows e (by simp))).bind fun value _ => ?_
    exact expectInt_related.bind fun n _ => .pure trivial

end

end

end Cascade
