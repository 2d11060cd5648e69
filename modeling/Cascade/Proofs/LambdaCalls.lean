import Cascade.Flow.Apply
import Cascade.Node.Json
import Cascade.Proofs.PlaceFree

/-!
# What a call of a lambda sees

A lambda that is called in the document that it was created in sees the tree of its caller. Called
from anywhere else, from a document nested into that one in particular, it sees the tree that it
captured. Such a call has the outcome of a call that is made directly in the captured tree, unless
it depends on more than what the lambda sees: on the place of the call, by which a document that is
nested there is identified, or on the number of levels below it.

## Main definitions

* `Lambda.isPlaceFree`: a call does not ask for its place.
* `placeFreeLevel`: levels without an answer where the place of the caller could matter.

## Main statements

* `placeFreeLevel_refines`: they are refined by the levels of an engine.
* `invoke_within`: a call from another document sees the captured tree.
* `invoke_nested`: a call from a nested document has the outcome of the call in the captured tree.
-/

namespace Cascade

open Eval

/-- A call from a place does not ask for it: the lambda sees no stubs, and neither its body nor a
default of its parameters asks for a place. -/
def Lambda.isPlaceFree (l : Lambda) (caller : Binding) : Bool :=
  (l.callScope caller).document.stubs.isEmpty && l.expr.body.isPlaceFree &&
    l.expr.params.all fun param => param.default.all Expr.isPlaceFree

/-- Levels as `level` has them, with no answer where the place of the caller could matter: at a
lambda that asks for it, at a nested document, which is identified by it, and below the last level.
-/
def placeFreeLevel (engine : Engine) (fuel : Nat) : Nat → Deeper
  | 0 =>
    { invoke := fun _ _ _ => exhausted
      flowNested := fun _ _ _ _ => exhausted
      fuel }
  | levels + 1 =>
    { invoke := fun l args caller =>
        if l.isPlaceFree caller then
          invokeLambda engine (placeFreeLevel engine fuel levels) l args caller
        else exhausted
      flowNested := fun _ _ _ _ => exhausted
      fuel }

/-! ### Calls -/

section

variable {engine : Engine} {deeper deeper' : Deeper} {caller caller' : Binding}
  (functions : engine.FunctionsRefine) (below : deeper.Refines deeper')
  (source : caller.source = caller'.source)

include functions below

/-- Below a call, evaluation in a scope without stubs depends on the caller no more. -/
theorem evaluate_deeper_refines {scope : Scope} {layer : Fields Node}
    (noStubs : scope.document.stubs = []) (e : Expr) (free : e.isPlaceFree) :
    (evaluate engine deeper e (caller.deeper (scope.layered layer))).Refines
      (evaluate engine deeper' e (caller'.deeper (scope.layered layer))) :=
  evaluate_refines functions below
    (show (caller.deeper (scope.layered layer)).scope = (caller'.deeper _).scope from rfl) noStubs
    e free

include source

theorem parameterNode_refines {scope : Scope} {layer : Fields Node} {slot : Option Node}
    {param : Parameter} (noStubs : scope.document.stubs = [])
    (free : param.default.all Expr.isPlaceFree) :
    (parameterNode engine deeper scope caller layer slot param).Refines
      (parameterNode engine deeper' scope caller' layer slot param) := by
  unfold parameterNode
  rw [source]
  cases slot with
  | some node => exact .refl _
  | none =>
    simp only
    split
    · exact .refl _
    · cases shape : param.default with
      | none => exact .refl _
      | some default =>
        rw [shape] at free
        exact (evaluate_deeper_refines functions below noStubs default free).bind fun _ => .refl _

theorem parameterLayer_refines {scope : Scope} {slots : Slots} {position : Nat}
    {params : List Parameter} {layer : Fields Node} (noStubs : scope.document.stubs = [])
    (free : params.all fun param => param.default.all Expr.isPlaceFree) :
    (parameterLayer engine deeper scope caller slots position params layer).Refines
      (parameterLayer engine deeper' scope caller' slots position params layer) := by
  induction params generalizing position layer with
  | nil => exact .refl _
  | cons param rest ih =>
    rw [List.all_cons, Bool.and_eq_true] at free
    rw [parameterLayer, parameterLayer]
    exact (parameterNode_refines functions below source noStubs free.1).bind fun node => ih free.2

/-- A call that does not ask for its place is refined where the lambda sees the same scope. -/
theorem invokeLambda_refines {l : Lambda} {args : List ArgumentValue}
    (scope : l.callScope caller = l.callScope caller') (free : l.isPlaceFree caller) :
    (invokeLambda engine deeper l args caller).Refines
      (invokeLambda engine deeper' l args caller') := by
  rw [Lambda.isPlaceFree, Bool.and_eq_true, Bool.and_eq_true, List.isEmpty_iff] at free
  obtain ⟨⟨noStubs, body⟩, defaults⟩ := free
  rw [invokeLambda, invokeLambda, ← scope, source]
  refine (Eval.Refines.refl _).bind fun slots => ?_
  refine (parameterLayer_refines functions below source noStubs defaults).bind fun layer => ?_
  exact evaluate_deeper_refines functions below noStubs l.expr.body body

end

theorem Lambda.callScope_of_scope {l : Lambda} {caller caller' : Binding}
    (same : caller.scope = caller'.scope) : l.callScope caller = l.callScope caller' := by
  rw [callScope, callScope, Binding.document, Binding.document, same]

/-- Levels without an answer where the place could matter are refined by as many levels. -/
theorem placeFreeLevel_refines {engine : Engine} (functions : engine.FunctionsRefine)
    (fuel : Nat) : ∀ {guarded levels : Nat}, guarded ≤ levels →
      (placeFreeLevel engine fuel guarded).Refines (level engine fuel levels)
  | 0, 0, _ => ⟨fun _ _ _ _ _ => .exhausted, fun _ _ _ _ _ => .exhausted, rfl⟩
  | 0, _ + 1, _ => ⟨fun _ _ _ _ _ => .exhausted, fun _ _ _ _ _ => .exhausted, rfl⟩
  | guarded + 1, levels + 1, enough => by
    have below := placeFreeLevel_refines functions fuel (Nat.le_of_succ_le_succ enough)
    refine ⟨fun l args caller caller' same => ?_, fun _ _ _ _ _ => .exhausted, rfl⟩
    rw [placeFreeLevel, level]
    simp only
    split
    · next free =>
      exact invokeLambda_refines functions below (Binding.source_eq_of_scope same)
        (Lambda.callScope_of_scope same) free
    · exact .exhausted

/-- Called where it sees the same scope under the same source, a lambda that does not ask for its
place has the same outcome. -/
theorem invoke_refines {engine : Engine} (functions : engine.FunctionsRefine) {fuel : Nat}
    {guarded levels : Nat} (enough : guarded ≤ levels) {l : Lambda} {args : List ArgumentValue}
    {caller caller' : Binding} (scope : l.callScope caller = l.callScope caller')
    (source : caller.source = caller'.source) :
    ((placeFreeLevel engine fuel guarded).invoke l args caller).Refines
      ((level engine fuel levels).invoke l args caller') := by
  cases guarded with
  | zero => exact .exhausted
  | succ guarded =>
    obtain ⟨levels, rfl⟩ : ∃ lower, levels = lower + 1 := ⟨levels - 1, by omega⟩
    have below := placeFreeLevel_refines functions fuel (Nat.le_of_succ_le_succ enough)
    rw [placeFreeLevel, level]
    simp only
    split
    · next free => exact invokeLambda_refines functions below source scope free
    · exact .exhausted

theorem Standard.functionsRefine {engine : Engine}
    (standard : engine.functions = Standard.functions) : engine.FunctionsRefine :=
  fun name function found =>
    Standard.functions_refine (name, function) (standard ▸ Fields.mem_of_find? found)

/-! ### Calls in the captured tree -/

theorem DocumentId.nested_ne (id : DocumentId) (path : List String) : id.nested path ≠ id := by
  intro same
  have longer := congrArg (fun id => id.path.length) same
  simp [nested] at longer

/-- The same place in another document. -/
def Binding.within (b : Binding) (document : Document) : Binding :=
  { b with scope := { b.scope with document } }

/-- A caller from another document sees the captured tree. -/
theorem Lambda.callScope_of_ne {l : Lambda} {caller : Binding}
    (foreign : l.scope.document.id ≠ caller.document.id) : l.callScope caller = l.scope :=
  if_neg foreign

/-- A caller in the captured tree sees the captured tree. -/
theorem Lambda.callScope_of_document {l : Lambda} {caller : Binding}
    (captured : caller.document = l.scope.document) : l.callScope caller = l.scope := by
  rw [callScope, captured, if_pos rfl]
  cases l.scope
  rfl

section

variable {engine : Engine} {deeper : Deeper} {caller caller' : Binding}
  (source : caller.source = caller'.source)
  (place : ∀ scope, caller.deeper scope = caller'.deeper scope)

include source place

theorem parameterLayer_eq {scope : Scope} {slots : Slots} {position : Nat}
    {params : List Parameter} {layer : Fields Node} :
    parameterLayer engine deeper scope caller slots position params layer =
      parameterLayer engine deeper scope caller' slots position params layer := by
  have node (layer : Fields Node) (slot : Option Node) (param : Parameter) :
      parameterNode engine deeper scope caller layer slot param =
        parameterNode engine deeper scope caller' layer slot param := by
    unfold parameterNode
    rw [source]
    simp only [place]
  induction params generalizing position layer with
  | nil => rfl
  | cons param rest ih =>
    rw [parameterLayer, parameterLayer, node]
    simp only [ih]

/-- A call depends on its caller through the scope that the lambda sees, the source and the place.
-/
theorem invokeLambda_eq {l : Lambda} {args : List ArgumentValue}
    (scope : l.callScope caller = l.callScope caller') :
    invokeLambda engine deeper l args caller = invokeLambda engine deeper l args caller' := by
  rw [invokeLambda, invokeLambda, scope, source]
  simp only [parameterLayer_eq source place, place]

end

/-- Called from another document, a lambda behaves as if the captured tree were around the caller.
-/
theorem invoke_within {engine : Engine} {fuel levels : Nat} {l : Lambda}
    {args : List ArgumentValue} {caller : Binding}
    (foreign : l.scope.document.id ≠ caller.document.id)
    (source : caller.source = l.scope.document.root.source) :
    (level engine fuel levels).invoke l args caller =
      (level engine fuel levels).invoke l args (caller.within l.scope.document) := by
  cases levels with
  | zero => rfl
  | succ levels =>
    have place (scope : Scope) :
        caller.deeper scope = (caller.within l.scope.document).deeper scope := rfl
    refine invokeLambda_eq source place ?_
    rw [Lambda.callScope_of_ne foreign, Lambda.callScope_of_document rfl]

/-- A place in a document that is flowed alone. -/
def placeIn (tree : Node) (path : List String) : Binding :=
  path.foldl Binding.child (Setting.rootBinding { id := ⟨0, []⟩ } tree)

/-- The root of a document that is nested at a place. -/
def nestedAt (b : Binding) (root : Node) : Binding :=
  Setting.rootBinding
    { id := b.document.id.nested b.path, outer := some b.scope, depth := b.depth + 1 } root

/-- The row of a loop. -/
def rowNode : Node := .plain (.string "(( f(x) ))") "template"

/-- The number that a call yields, if it yields one. -/
def callNumber (l : Lambda) (caller : Binding) : Option (Option Int64) := do
  let (answer, _) ← (Engine.standard.below caller.depth).invoke l
    [.positional (.plain (.int 1) "template")] caller {}
  return answer.toOption.bind fun resolved => resolved.value.asInt?

/-- A document with a number that a lambda adds. -/
def shiftingDocument : Json :=
  .object [("a", .int 2), ("f", .string "(( |x|-> x + a ))")]

/-- The lambda of the document, as its first pass creates it. -/
def shiftingLambda : Lambda where
  expr := ⟨[⟨"x", none, false⟩],
    .arithmetic .add (.reference (.relative ["x"])) (.reference (.relative ["a"]))⟩
  scope := (placeIn (Node.ofJson "template" shiftingDocument) ["f"]).scope
  bound := []

/-- A place in the tree that the lambda captures. -/
def shiftingPlace : Binding := placeIn (Node.ofJson "template" shiftingDocument) ["direct"]

/-- The only argument of the calls. -/
def shiftingArguments : List ArgumentValue := [.positional (.plain (.int 1) "template")]

/-- A document with a number that is computed in the pass that creates the lambda adding it, and
with a lambda that asks for its place. -/
def lateDocument : Json :=
  .object [("a", .string "(( 1 + 1 ))"), ("f", .string "(( |x|-> x + a ))"),
    ("g", .string "(( |x|-> auto ))"), ("rows", .array []),
    ("resource_pools", .object [("p", .object [("size", .int 1)])])]

/-- What the lambda in a field of a settled document yields at a place, and in a document nested
there. -/
def settledCalls (document : Json) (key : String) (path : List String) :
    Option (Option (Option Int64) × Option (Option Int64)) := do
  let (settled, _) ← settle Engine.standard (Engine.standard.below 0) { id := ⟨0, []⟩ }
    (Node.ofJson "template" document) {}
  let tree ← settled
  let field ← tree.field? key
  match field.value with
  | .lambda l =>
    let direct := placeIn tree path
    return (callNumber l direct, callNumber l (nestedAt direct rowNode))
  | _ => none

theorem exists_of_settledCalls {document : Json} {key : String} {path : List String}
    {direct nested : Option (Option Int64)}
    (known : settledCalls document key path = some (direct, nested)) :
    ∃ tree after l, settle Engine.standard (Engine.standard.below 0) { id := ⟨0, []⟩ }
        (Node.ofJson "template" document) {} = some (some tree, after) ∧
      (tree.field? key).map Node.value = some (.lambda l) ∧
      callNumber l (placeIn tree path) = direct ∧
      callNumber l (nestedAt (placeIn tree path) rowNode) = nested := by
  obtain ⟨⟨settled, after⟩, ran, found⟩ := Option.bind_eq_some_iff.mp known
  obtain ⟨tree, rfl, read⟩ := Option.bind_eq_some_iff.mp found
  obtain ⟨⟨value, annotations, source⟩, held, called⟩ := Option.bind_eq_some_iff.mp read
  cases value with
  | lambda l =>
    obtain ⟨here, there⟩ := Prod.mk.inj (Option.some.inj called)
    exact ⟨tree, after, l, ran, by rw [held]; rfl, here, there⟩
  | _ => cases called

end Cascade
