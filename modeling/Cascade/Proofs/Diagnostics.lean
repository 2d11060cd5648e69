import Cascade.Flow.Report
import Cascade.Proofs.Inheritance

/-!
# Diagnostics that show

A report looks at expressions, at strings with an error of their own, and at maps and lists with an
issue. A node is sound if its diagnostics are such that the report sees it whenever it has any, and
if the same holds of everything below it and of everything that it remembers: the bodies of
templates, and the arguments and scopes of lambdas. What is read out of a sound tree, and what is
put together from sound parts, is sound.

Soundness also follows the documents that remembered scopes belong to. A lineage says which ones may
occur; all may, unless another lineage is chosen.

## Main definitions

* `Value.shows`: the diagnostics of a node of this value show in a report.
* `Lineage`: the documents that scopes may belong to.
* `Node.Sound`, `Value.Sound`, `Lambda.Sound`, `Scope.Sound`, `Document.Sound`.

## Main statements

* `inherited_sound`: what is read out of sound trees and scopes is sound.
* `Reference.explains_resolve`: references have sound values.
* `Lambda.sound_bindArguments`: bound arguments stay sound.
-/

namespace Cascade

/-! ### Sound nodes -/

/-- If a node of this value has a diagnostic, a report shows the node. -/
def Value.shows (value : Value) (a : Annotations) : Bool :=
  match value with
  | .expression _ => true
  | .string _ => a.hasError || (!a.failed && a.issue.isNone)
  | .list _ | .map _ => a.issue.isSome || (!a.hasError && !a.failed)
  | _ => !a.hasError && !a.failed && a.issue.isNone

/-- Which documents the scopes in a tree may belong to: the identities that a scope inside another
one, or inside none, may have. Whatever they are, a document that is nested at a place may be flowed
there, and so may the stubs that are prepared for it. -/
class Lineage where
  admits : DocumentId → Option Scope → Prop
  nested : ∀ scope path, admits scope.document.id scope.outer →
    admits (scope.document.id.nested path) (some scope)
  stub : ∀ scope path (number : Nat), admits scope.document.id scope.outer →
    admits ((scope.document.id.nested path).nested ["stub" ++ toString number]) (some scope)

/-- Unless it matters, scopes may belong to any document. -/
instance (priority := low) Lineage.any : Lineage :=
  ⟨fun _ _ => True, fun _ _ _ => trivial, fun _ _ _ _ => trivial⟩

variable [Lineage]

mutual

/-- The diagnostics of a node, and of everything in it, show in reports. -/
def Node.Sound : Node → Prop
  | ⟨value, annotations, _⟩ => value.shows annotations = true ∧ Value.Sound value

/-- The diagnostics in a value show in reports. -/
def Value.Sound : Value → Prop
  | .list items => itemsSound items
  | .map fields => fieldsSound fields
  | .lambda l => Lambda.Sound l
  | .template body => Node.Sound body
  | _ => True

/-- All items are sound. -/
def itemsSound : List Node → Prop
  | [] => True
  | item :: rest => item.Sound ∧ itemsSound rest

/-- All fields are sound. -/
def fieldsSound : List (String × Node) → Prop
  | [] => True
  | (_, child) :: rest => child.Sound ∧ fieldsSound rest

/-- The bound arguments and the scope of a lambda are sound. -/
def Lambda.Sound : Lambda → Prop
  | ⟨_, scope, bound⟩ => Scope.Sound scope ∧ boundSound bound

/-- All bound arguments are sound. -/
def boundSound : List (Nat × Node) → Prop
  | [] => True
  | (_, argument) :: rest => argument.Sound ∧ boundSound rest

/-- What names can mean in a scope is sound, and the scope may belong to its document. -/
def Scope.Sound : Scope → Prop
  | ⟨document, locals, _, outer⟩ =>
    Lineage.admits document.id outer ∧ Document.Sound document ∧ layersSound locals ∧
      outerSound outer

/-- The snapshot of a document is sound, with its stubs and its state. -/
def Document.Sound : Document → Prop
  | ⟨_, root, stubs, state⟩ => root.Sound ∧ itemsSound stubs ∧ stateSound state

/-- All local names stand for sound nodes. -/
def layersSound : List (List (String × Node)) → Prop
  | [] => True
  | layer :: rest => fieldsSound layer ∧ layersSound rest

/-- The outer scope is sound, if there is one. -/
def outerSound : Option Scope → Prop
  | none => True
  | some scope => Scope.Sound scope

/-- The state document is sound, if there is one. -/
def stateSound : Option Node → Prop
  | none => True
  | some state => Node.Sound state

end

theorem itemsSound_iff {items : List Node} : itemsSound items ↔ ∀ item ∈ items, item.Sound := by
  induction items with
  | nil => simp [itemsSound]
  | cons item rest ih => simp [itemsSound, ih]

theorem fieldsSound_iff {fields : Fields Node} :
    fieldsSound fields ↔ ∀ field ∈ fields, field.2.Sound := by
  induction fields with
  | nil => simp [fieldsSound]
  | cons field rest ih => simp [fieldsSound, ih]

theorem boundSound_iff {bound : Slots} : boundSound bound ↔ ∀ slot ∈ bound, slot.2.Sound := by
  induction bound with
  | nil => simp [boundSound]
  | cons slot rest ih => simp [boundSound, ih]

theorem layersSound_iff {layers : List (Fields Node)} :
    layersSound layers ↔ ∀ layer ∈ layers, ∀ field ∈ layer, field.2.Sound := by
  induction layers with
  | nil => simp [layersSound]
  | cons layer rest ih => simp [layersSound, ih, fieldsSound_iff]

theorem Node.sound_iff {node : Node} :
    node.Sound ↔ node.value.shows node.annotations = true ∧ node.value.Sound := by
  obtain ⟨value, annotations, source⟩ := node
  rw [Node.Sound]

theorem Value.sound_list {items : List Node} :
    (Value.list items).Sound ↔ ∀ item ∈ items, item.Sound :=
  itemsSound_iff

theorem Value.sound_map {fields : Fields Node} :
    (Value.map fields).Sound ↔ ∀ field ∈ fields, field.2.Sound :=
  fieldsSound_iff

theorem Value.sound_lambda {l : Lambda} : (Value.lambda l).Sound ↔ l.Sound := Iff.rfl

theorem Value.sound_template {body : Node} : (Value.template body).Sound ↔ body.Sound :=
  Iff.rfl

@[simp] theorem Value.sound_nil : Value.nil.Sound := trivial

@[simp] theorem Value.sound_bool (b : Bool) : (Value.bool b).Sound := trivial

@[simp] theorem Value.sound_int (n : Int64) : (Value.int n).Sound := trivial

@[simp] theorem Value.sound_float (x : Float) : (Value.float x).Sound := trivial

@[simp] theorem Value.sound_string (s : String) : (Value.string s).Sound := trivial

@[simp] theorem Value.sound_expression (e : Expr) : (Value.expression e).Sound := trivial

theorem Lambda.sound_iff {l : Lambda} :
    l.Sound ↔ l.scope.Sound ∧ ∀ slot ∈ l.bound, slot.2.Sound := by
  obtain ⟨expr, scope, bound⟩ := l
  rw [Lambda.Sound, boundSound_iff]

theorem Scope.sound_iff {scope : Scope} :
    scope.Sound ↔ Lineage.admits scope.document.id scope.outer ∧ scope.document.Sound ∧
      (∀ layer ∈ scope.locals, ∀ field ∈ layer, field.2.Sound) ∧
      ∀ outer ∈ scope.outer, outer.Sound := by
  obtain ⟨document, locals, anchor, outer⟩ := scope
  rw [Scope.Sound, layersSound_iff]
  cases outer <;> simp [outerSound]

theorem Document.sound_iff {d : Document} :
    d.Sound ↔ d.root.Sound ∧ (∀ stub ∈ d.stubs, stub.Sound) ∧ ∀ state ∈ d.state, state.Sound := by
  obtain ⟨id, root, stubs, state⟩ := d
  rw [Document.Sound, itemsSound_iff]
  cases state <;> simp [stateSound]

/-! ### Nodes without diagnostics -/

/-- The annotations carry no diagnostic. -/
def Annotations.isClear (a : Annotations) : Bool := !a.hasError && !a.failed && a.issue.isNone

omit [Lineage] in
theorem Annotations.isClear_clearIssue (a : Annotations) : a.clearIssue.isClear = true := rfl

omit [Lineage] in
theorem Info.isClear_annotate (info : Info) (a : Annotations) :
    (info.annotate a).isClear = a.isClear := rfl

omit [Lineage] in
theorem Value.shows_of_isClear {value : Value} {a : Annotations} (clear : a.isClear = true) :
    value.shows a = true := by
  simp only [Annotations.isClear, Bool.and_eq_true, Bool.not_eq_true', Option.isNone_iff_eq_none]
    at clear
  obtain ⟨⟨noError, notFailed⟩, noIssue⟩ := clear
  cases value <;> simp [Value.shows, noError, notFailed, noIssue]

/-- A sound value without diagnostics of its own makes a sound node. -/
theorem Node.sound_of_isClear {value : Value} {a : Annotations} {source : String}
    (sound : value.Sound) (clear : a.isClear = true) : (Node.mk value a source).Sound :=
  Node.sound_iff.mpr ⟨Value.shows_of_isClear clear, sound⟩

theorem Node.sound_plain {value : Value} {source : String} (sound : value.Sound) :
    (Node.plain value source).Sound :=
  Node.sound_of_isClear sound rfl

/-- A map or list with an issue of its own makes a sound node. -/
theorem Node.sound_of_issue {value : Value} {a : Annotations} {source : String}
    (sound : value.Sound) (container : (∃ items, value = .list items) ∨ ∃ fields, value = .map fields)
    (issue : a.issue.isSome = true) : (Node.mk value a source).Sound := by
  refine Node.sound_iff.mpr ⟨?_, sound⟩
  rcases container with ⟨items, rfl⟩ | ⟨fields, rfl⟩ <;> simp [Value.shows, issue]


/-! ### Reading a sound tree -/

theorem Node.Sound.value {node : Node} (sound : node.Sound) : node.value.Sound :=
  (Node.sound_iff.mp sound).2

/-- What is read out of sound trees and scopes is sound. -/
theorem inherited_sound : InheritedInScopes Node.Sound Scope.Sound where
  item sound := Value.sound_list.mp sound.value
  field sound := Value.sound_map.mp sound.value
  lambda sound := (Lambda.sound_iff.mp (Value.sound_lambda.mp sound.value)).1
  root sound := (Document.sound_iff.mp (Scope.sound_iff.mp sound).2.1).1
  stub sound := (Document.sound_iff.mp (Scope.sound_iff.mp sound).2.1).2.1
  named sound := (Scope.sound_iff.mp sound).2.2.1
  outer sound := (Scope.sound_iff.mp sound).2.2.2

namespace Node.Sound

theorem field? {node child : Node} {key : String} (sound : node.Sound)
    (found : node.field? key = some child) : child.Sound :=
  inherited_sound.toInherited.field? sound found

theorem stepBy? {node next : Node} {segment key : String} (sound : node.Sound)
    (step : node.stepBy? segment key = some next) : next.Sound :=
  inherited_sound.toInherited.stepBy? sound step

theorem lookup? {root node : Node} {path : List String} {defaultKey : String} (sound : root.Sound)
    (found : root.lookup? path defaultKey = some node) : node.Sound :=
  inherited_sound.toInherited.lookup? sound found

end Node.Sound

/-! ### References -/

/-- The value of an outcome is sound. -/
def Resolved.Sound (r : Resolved) : Prop := r.value.Sound

theorem Node.Sound.explains_nodeValue {name : String} {node : Node} {asItIs : Bool}
    (sound : node.Sound) : Explains Resolved.Sound (nodeValue name node asItIs) := by
  refine Explains.mono Cascade.explains_nodeValue fun r known => ?_
  rw [Resolved.Sound, known.1]
  exact sound.value

theorem Reference.explains_resolve {defaultKey : String} {r : Reference} {scope : Scope}
    {asItIs : Bool} (sound : scope.Sound) :
    Explains Resolved.Sound (r.resolve scope defaultKey asItIs) :=
  (inherited_sound.explains_find sound).bind fun _ node => node.explains_nodeValue

/-! ### Bound arguments -/

/-- The node of an argument is sound. -/
def ArgumentValue.Sound : ArgumentValue → Prop
  | .positional node | .named _ node | .indexed _ node => node.Sound

theorem gathered_sound : Gathered Node.Sound where
  plain inside := Node.sound_plain (Value.sound_list.mpr inside)
  append sound more := Node.sound_iff.mpr ⟨(Node.sound_iff.mp sound).1, Value.sound_list.mpr
    fun item member => (List.mem_append.mp member).elim (Value.sound_list.mp sound.value item)
      (more item)⟩

/-- Binding sound arguments to a sound lambda gives sound slots. -/
theorem Lambda.sound_bindArguments {l : Lambda} {args : List ArgumentValue} {slots : Slots}
    (sound : l.Sound) (arguments : ∀ argument ∈ args, argument.Sound)
    (bound : l.bindArguments args = .ok slots) : ∀ slot ∈ slots, slot.2.Sound := by
  refine Lambda.bindArguments_has gathered_sound (Lambda.sound_iff.mp sound).2
    (fun argument member => ?_) bound
  have known := arguments argument member
  cases argument <;> exact known

theorem Lambda.sound_curry {l l' : Lambda} {args : List ArgumentValue} (sound : l.Sound)
    (arguments : ∀ argument ∈ args, argument.Sound) (curried : l.curry args = .ok l') :
    l'.Sound := by
  obtain ⟨slots, bound, rfl⟩ := Lambda.eq_of_curry curried
  exact Lambda.sound_iff.mpr
    ⟨(Lambda.sound_iff.mp sound).1, Lambda.sound_bindArguments sound arguments bound⟩

end Cascade
