import Cascade.Flow.Override
import Cascade.Flow.Settle
import Cascade.Proofs.Inheritance
import Cascade.Proofs.PrintedForms
import Cascade.Proofs.ResolvedNodes
import Cascade.Proofs.SimpleValues

/-!
# Tame documents

What an expression computes is put into the document, where a later pass reads it again. It can hold
new expressions: texts that were put together so that they read as one, and maps with a directive. A
document is tame if this cannot happen. In its texts no bracket opens, but in texts that are an
expression as a whole; its expressions spell out no bracket and no directive in their literals, and do
without the calls that quote errors or values; and what stands under a directive key is either the
directive or a tree in which nothing is left to evaluate and no control left to run.

Tameness covers what a node remembers: bodies of templates, and the expressions, scopes and bound
arguments of lambdas. It comes in two degrees. A tree as written may hold expressions outside what it
remembers, a computed one may not.

## Main definitions

* `Expr.Tame`: an expression whose literals are harmless.
* `Node.pending`, `Node.rank`: how many expressions a tree holds, and how deep its controls are nested.
* `Node.Tame`, `Value.Tame`, `Lambda.Tame`, `Scope.Tame`, `Document.Tame`.
* `Node.Still`: a computed tree without controls.

## Main statements

* `Node.tame_false_iff`: a computed tree is one as written that holds no expression.
* `Node.tame_of_isResolved`: a complete tree is a computed one.
* `inherited_tame`: what is read out of tame trees and scopes is tame.
-/

namespace Cascade

/-! ### Expressions -/

/-- The callee is the function that writes values as they are displayed. -/
def Expr.isFormat (callee : Expr) : Prop :=
  ∃ r : Reference, callee.ungrouped = .reference r ∧ r.simpleName? = some "format"

/-- The node of an expression spells out no bracket and no directive, and quotes no error and no
value. It does not wait for anything either. -/
def Expr.Mild : Expr → Prop
  | .string text => isBare text = true
  | .map entries => ∀ entry ∈ entries, isBare entry.1 = true ∧ entry.1 ≠ directiveKey
  | .call callee _ => ¬callee.isFormat
  | .intrinsic id _ => id ≠ .catchError ∧ id ≠ .sync
  | _ => True

/-- All nodes of an expression are mild, those in the bodies of lambdas included. -/
def Expr.Tame (e : Expr) : Prop := e.Everywhere Expr.Mild

/-- The body of a lambda and the default values of its parameters are tame. -/
def LambdaExpr.Tame (l : LambdaExpr) : Prop := (Expr.lambda l).Tame

/-! ### Expressions and controls in trees -/

mutual

/-- How many expressions a tree holds, read or unread. -/
def Node.pending : Node → Nat
  | ⟨value, _, _⟩ => Value.pending value

/-- How many expressions a value holds. -/
def Value.pending : Value → Nat
  | .expression _ => 1
  | .string text => if Embedded.isUnread text then 1 else 0
  | .list items => itemsPending items
  | .map fields => fieldsPending fields
  | _ => 0

/-- How many expressions some trees hold. -/
def itemsPending : List Node → Nat
  | [] => 0
  | item :: rest => item.pending + itemsPending rest

/-- How many expressions some fields hold. -/
def fieldsPending : List (String × Node) → Nat
  | [] => 0
  | (_, child) :: rest => child.pending + fieldsPending rest

end

/-- The keys of controls and their options. -/
def controlCount (fields : Fields Node) : Nat := (controlNames fields).length

mutual

/-- How deep controls are nested in a tree. A map with more than one control key counts twice. -/
def Node.rank : Node → Nat
  | ⟨value, _, _⟩ => Value.rank value

/-- How deep controls are nested in a value. -/
def Value.rank : Value → Nat
  | .list items => itemsRank items
  | .map fields => min 2 (controlCount fields) + fieldsRank fields
  | _ => 0

/-- How deep controls are nested in some trees. -/
def itemsRank : List Node → Nat
  | [] => 0
  | item :: rest => max item.rank (itemsRank rest)

/-- How deep controls are nested in some fields. -/
def fieldsRank : List (String × Node) → Nat
  | [] => 0
  | (_, child) :: rest => max child.rank (fieldsRank rest)

end

/-! ### Tame trees -/

/-- The text is an expression as a whole, and a tame one. -/
def Embedded.IsTame (text : String) : Prop := ∃ e, classify text = .expression e ∧ e.Tame

mutual

/-- No evaluation in the tree, as written or as computed, makes an expression of what is none. -/
def Node.Tame : (written : Bool) → Node → Prop
  | written, ⟨value, _, _⟩ => Value.Tame written value

/-- No evaluation in the value makes an expression of what is none. -/
def Value.Tame : (written : Bool) → Value → Prop
  | written, .string text => isBare text = true ∨ written = true ∧ Embedded.IsTame text
  | written, .expression e => written = true ∧ e.Tame
  | written, .list items => itemsTame written items
  | written, .map fields => Fields.Sorted fields ∧ fieldsTame written fields
  | _, .lambda l => Lambda.Tame l
  | _, .template body => Node.Tame true body
  | _, _ => True

/-- All items are tame. -/
def itemsTame : (written : Bool) → List Node → Prop
  | _, [] => True
  | written, item :: rest => item.Tame written ∧ itemsTame written rest

/-- All fields are tame. What is under a directive key is a directive or has nothing to evaluate. -/
def fieldsTame : (written : Bool) → List (String × Node) → Prop
  | _, [] => True
  | written, (key, child) :: rest =>
    (isBare key = true ∧ child.Tame written ∧
      (key = directiveKey → child.expr?.isSome = true ∨ child.Tame false ∧ child.rank = 0)) ∧
    fieldsTame written rest

/-- The lambda computes tame values. -/
def Lambda.Tame : Lambda → Prop
  | ⟨expr, scope, bound⟩ => expr.Tame ∧ Scope.Tame scope ∧ boundTame bound

/-- All bound arguments are tame. -/
def boundTame : List (Nat × Node) → Prop
  | [] => True
  | (_, argument) :: rest => argument.Tame true ∧ boundTame rest

/-- What names can mean in a scope is tame. -/
def Scope.Tame : Scope → Prop
  | ⟨document, locals, _, outer⟩ => Document.Tame document ∧ layersTame locals ∧ outerTame outer

/-- The snapshot of a document is tame, with its stubs. Its state has nothing to evaluate. -/
def Document.Tame : Document → Prop
  | ⟨_, root, stubs, state⟩ => root.Tame true ∧ itemsTame true stubs ∧ stateTame state

/-- All local names stand for tame nodes. -/
def layersTame : List (List (String × Node)) → Prop
  | [] => True
  | layer :: rest => namesTame layer ∧ layersTame rest

/-- The local names of a layer stand for tame nodes. -/
def namesTame : List (String × Node) → Prop
  | [] => True
  | (_, node) :: rest => node.Tame true ∧ namesTame rest

/-- The outer scope is tame, if there is one. -/
def outerTame : Option Scope → Prop
  | none => True
  | some scope => Scope.Tame scope

/-- Nothing is left to evaluate in the state document, if there is one, and no control to run. -/
def stateTame : Option Node → Prop
  | none => True
  | some state => Node.Tame false state ∧ Node.rank state = 0

end

/-- Nothing is left to evaluate in the tree, and no control is left to run. -/
def Node.Still (node : Node) : Prop := node.Tame false ∧ node.rank = 0

/-- A tame field. -/
def FieldTame (written : Bool) (field : String × Node) : Prop :=
  isBare field.1 = true ∧ field.2.Tame written ∧
    (field.1 = directiveKey → field.2.expr?.isSome = true ∨ field.2.Still)


/-! ### Equations -/

variable {written : Bool}

theorem Node.tame_iff {node : Node} : node.Tame written ↔ node.value.Tame written := by
  obtain ⟨value, annotations, source⟩ := node
  rw [Node.Tame]

theorem Node.Tame.value {node : Node} (tame : node.Tame written) : node.value.Tame written :=
  Node.tame_iff.mp tame

theorem Node.tame_plain {value : Value} {source : String} :
    (Node.plain value source).Tame written ↔ value.Tame written := Node.tame_iff

theorem itemsTame_iff {items : List Node} :
    itemsTame written items ↔ ∀ item ∈ items, item.Tame written := by
  induction items with
  | nil => simp [itemsTame]
  | cons item rest ih => simp [itemsTame, ih]

theorem fieldsTame_iff {fields : Fields Node} :
    fieldsTame written fields ↔ ∀ field ∈ fields, FieldTame written field := by
  induction fields with
  | nil => simp [fieldsTame]
  | cons field rest ih => simp [fieldsTame, ih, FieldTame, Node.Still]

theorem boundTame_iff {bound : Slots} : boundTame bound ↔ ∀ slot ∈ bound, slot.2.Tame true := by
  induction bound with
  | nil => simp [boundTame]
  | cons slot rest ih => simp [boundTame, ih]

theorem namesTame_iff {layer : Fields Node} :
    namesTame layer ↔ ∀ field ∈ layer, field.2.Tame true := by
  induction layer with
  | nil => simp [namesTame]
  | cons field rest ih => simp [namesTame, ih]

theorem layersTame_iff {layers : List (Fields Node)} :
    layersTame layers ↔ ∀ layer ∈ layers, ∀ field ∈ layer, field.2.Tame true := by
  induction layers with
  | nil => simp [layersTame]
  | cons layer rest ih => simp [layersTame, ih, namesTame_iff]

theorem Value.tame_list {items : List Node} :
    (Value.list items).Tame written ↔ ∀ item ∈ items, item.Tame written := itemsTame_iff

theorem Value.tame_map {fields : Fields Node} :
    (Value.map fields).Tame written ↔
      fields.Sorted ∧ ∀ field ∈ fields, FieldTame written field := by
  rw [← fieldsTame_iff]
  rfl

theorem Value.Tame.fields {fields : Fields Node} (tame : (Value.map fields).Tame written) :
    ∀ field ∈ fields, FieldTame written field := (Value.tame_map.mp tame).2

theorem Value.tame_lambda {l : Lambda} : (Value.lambda l).Tame written ↔ l.Tame := by
  rw [Value.Tame]

theorem Value.tame_template {body : Node} :
    (Value.template body).Tame written ↔ body.Tame true := by
  rw [Value.Tame]

theorem Value.tame_string_of_isBare {text : String} (bare : isBare text = true) :
    (Value.string text).Tame written := .inl bare

theorem Value.tame_expression {e : Expr} : (Value.expression e).Tame true ↔ e.Tame := by
  rw [Value.Tame]
  exact and_iff_right rfl

@[simp] theorem Value.tame_nil : Value.nil.Tame written := trivial

@[simp] theorem Value.tame_bool (b : Bool) : (Value.bool b).Tame written := trivial

@[simp] theorem Value.tame_int (n : Int64) : (Value.int n).Tame written := trivial

@[simp] theorem Value.tame_float (x : Float) : (Value.float x).Tame written := trivial

theorem Lambda.tame_iff {l : Lambda} :
    l.Tame ↔ l.expr.Tame ∧ l.scope.Tame ∧ ∀ slot ∈ l.bound, slot.2.Tame true := by
  obtain ⟨expr, scope, bound⟩ := l
  rw [Lambda.Tame, boundTame_iff]

theorem Scope.tame_iff {scope : Scope} :
    scope.Tame ↔ scope.document.Tame ∧
      (∀ layer ∈ scope.locals, ∀ field ∈ layer, field.2.Tame true) ∧
      ∀ outer ∈ scope.outer, outer.Tame := by
  obtain ⟨document, locals, anchor, outer⟩ := scope
  rw [Scope.Tame, layersTame_iff]
  cases outer <;> simp [outerTame]

theorem Document.tame_iff {d : Document} :
    d.Tame ↔ d.root.Tame true ∧ (∀ stub ∈ d.stubs, stub.Tame true) ∧
      ∀ state ∈ d.state, state.Still := by
  obtain ⟨id, root, stubs, state⟩ := d
  rw [Document.Tame, itemsTame_iff]
  cases state <;> simp [stateTame, Node.Still]

/-! ### Sums and bounds -/

section

variable {items : List Node} {fields : Fields Node}

theorem pending_le_itemsPending {item : Node} (member : item ∈ items) :
    item.pending ≤ itemsPending items := by
  induction items with
  | nil => cases member
  | cons first rest ih =>
    rw [itemsPending]
    rcases List.mem_cons.mp member with rfl | later
    · omega
    · have := ih later
      omega

theorem pending_le_fieldsPending {field : String × Node} (member : field ∈ fields) :
    field.2.pending ≤ fieldsPending fields := by
  induction fields with
  | nil => cases member
  | cons first rest ih =>
    rw [fieldsPending]
    rcases List.mem_cons.mp member with rfl | later
    · omega
    · have := ih later
      omega

theorem itemsPending_eq_zero_iff : itemsPending items = 0 ↔ ∀ item ∈ items, item.pending = 0 := by
  induction items with
  | nil => simp [itemsPending]
  | cons item rest ih => rw [itemsPending, Nat.add_eq_zero_iff, ih, List.forall_mem_cons]

theorem fieldsPending_eq_zero_iff :
    fieldsPending fields = 0 ↔ ∀ field ∈ fields, field.2.pending = 0 := by
  induction fields with
  | nil => simp [fieldsPending]
  | cons field rest ih => rw [fieldsPending, Nat.add_eq_zero_iff, ih, List.forall_mem_cons]

theorem itemsRank_le_iff {bound : Nat} :
    itemsRank items ≤ bound ↔ ∀ item ∈ items, item.rank ≤ bound := by
  induction items with
  | nil => simp [itemsRank]
  | cons item rest ih => rw [itemsRank, Nat.max_le, ih, List.forall_mem_cons]

theorem fieldsRank_le_iff {bound : Nat} :
    fieldsRank fields ≤ bound ↔ ∀ field ∈ fields, field.2.rank ≤ bound := by
  induction fields with
  | nil => simp [fieldsRank]
  | cons field rest ih => rw [fieldsRank, Nat.max_le, ih, List.forall_mem_cons]

theorem rank_le_itemsRank {item : Node} (member : item ∈ items) : item.rank ≤ itemsRank items :=
  itemsRank_le_iff.mp (Nat.le_refl _) item member

theorem rank_le_fieldsRank {field : String × Node} (member : field ∈ fields) :
    field.2.rank ≤ fieldsRank fields :=
  fieldsRank_le_iff.mp (Nat.le_refl _) field member

end

/-! ### The two degrees -/

theorem Embedded.classify_of_isBare {text : String} (bare : isBare text = true) :
    classify text = .literal := by
  rw [classify, inner?_of_isBare bare]

theorem Embedded.isUnread_of_isBare {text : String} (bare : isBare text = true) :
    isUnread text = false := by
  rw [← Bool.not_eq_true, isUnread_iff_classify, classify_of_isBare bare]
  simp

theorem Embedded.IsTame.isUnread {text : String} (tame : IsTame text) : isUnread text = true := by
  obtain ⟨e, reads, -⟩ := tame
  exact isUnread_iff_classify.mpr (.inl ⟨e, reads⟩)

theorem Node.pending_map {fields : Fields Node} {annotations : Annotations} {source : String} :
    (Node.mk (.map fields) annotations source).pending = fieldsPending fields := rfl

theorem Node.pending_list {items : List Node} {annotations : Annotations} {source : String} :
    (Node.mk (.list items) annotations source).pending = itemsPending items := rfl

/-- A computed tree is a tree as written that holds no expression. -/
theorem Node.tame_false_iff {node : Node} :
    node.Tame false ↔ node.Tame true ∧ node.pending = 0 := by
  induction node using Node.treeInduction with
  | list items annotations source ih =>
    rw [tame_iff, tame_iff, Value.tame_list, Value.tame_list, pending_list,
      itemsPending_eq_zero_iff, ← forall₂_and]
    exact forall₂_congr ih
  | map fields annotations source ih =>
    rw [tame_iff, tame_iff, Value.tame_map, Value.tame_map, pending_map,
      fieldsPending_eq_zero_iff, and_assoc, ← forall₂_and]
    refine and_congr_right fun _ => forall₂_congr fun field member => ?_
    simp only [FieldTame, ih field member]
    tauto
  | leaf value annotations source notList notMap =>
    rw [tame_iff, tame_iff, Node.pending]
    cases value with
    | list items => exact absurd rfl (notList items)
    | map fields => exact absurd rfl (notMap fields)
    | string text =>
      rw [Value.Tame, Value.Tame, Value.pending]
      constructor
      · rintro (bare | ⟨⟨⟩, -⟩)
        exact ⟨.inl bare, by rw [Embedded.isUnread_of_isBare bare]; rfl⟩
      · rintro ⟨bare | ⟨-, tame⟩, read⟩
        · exact .inl bare
        · rw [tame.isUnread] at read
          cases read
    | expression e => simp [Value.Tame, Value.pending]
    | lambda l => simp [Value.tame_lambda, Value.pending]
    | template body => simp [Value.tame_template, Value.pending]
    | _ => simp [Value.pending]

theorem Node.Tame.asWritten {node : Node} (tame : node.Tame written) : node.Tame true := by
  cases written with
  | true => exact tame
  | false => exact (Node.tame_false_iff.mp tame).1

theorem Value.Tame.asWritten {value : Value} (tame : value.Tame written) : value.Tame true := by
  have plain : (Node.plain value "").Tame written := Node.tame_plain.mpr tame
  exact Node.tame_plain.mp plain.asWritten

theorem Node.pending_of_tame_false {node : Node} (tame : node.Tame false) : node.pending = 0 :=
  (Node.tame_false_iff.mp tame).2

/-- A tree holds no expression if nothing in it is left to evaluate. -/
theorem Node.pending_eq_zero_iff {node : Node} : node.pending = 0 ↔ node.isEvaluated = true := by
  rw [Node.isEvaluated_iff]
  induction node using Node.treeInduction with
  | list items annotations source ih =>
    rw [pending_list, itemsPending_eq_zero_iff, Value.isEvaluated_list]
    simp only [Node.isEvaluated_iff]
    exact forall₂_congr ih
  | map fields annotations source ih =>
    rw [pending_map, fieldsPending_eq_zero_iff, Value.isEvaluated_map]
    simp only [Node.isEvaluated_iff]
    exact forall₂_congr ih
  | leaf value annotations source notList notMap =>
    cases value with
    | list items => exact absurd rfl (notList items)
    | map fields => exact absurd rfl (notMap fields)
    | string text =>
      cases unread : Embedded.isUnread text <;>
        simp [pending, Value.pending, Value.isEvaluated, unread]
    | _ => simp [pending, Value.pending, Value.isEvaluated]

/-- A complete tree is a computed one. -/
theorem Node.tame_of_isResolved {node : Node} (tame : node.Tame true)
    (resolved : node.isResolved = true) : node.Tame false :=
  Node.tame_false_iff.mpr ⟨tame, Node.pending_eq_zero_iff.mpr (Node.isEvaluated_of_isResolved resolved)⟩

/-- Trees that look the same hold equally many expressions. -/
theorem Node.pending_of_same {a b : Node} (same : a.same b = true) : a.pending = b.pending := by
  induction a using Node.treeInduction generalizing b with
  | list items annotations source ih =>
    obtain ⟨value', annotations', source'⟩ := b
    obtain ⟨items', rfl, alike⟩ := Value.eq_list_of_same (Node.same_iff.mp same).1
    rw [pending_list, pending_list]
    clear same
    induction items generalizing items' with
    | nil =>
      cases items' with
      | nil => rfl
      | cons _ _ => simp [sameNodes] at alike
    | cons item rest others =>
      cases items' with
      | nil => simp [sameNodes] at alike
      | cons item' rest' =>
        rw [sameNodes, Bool.and_eq_true] at alike
        rw [itemsPending, itemsPending, ih item List.mem_cons_self alike.1,
          others (fun item member _ => ih item (List.mem_cons_of_mem _ member)) rest' alike.2]
  | map fields annotations source ih =>
    obtain ⟨value', annotations', source'⟩ := b
    obtain ⟨fields', rfl, alike⟩ := Value.eq_map_of_same (Node.same_iff.mp same).1
    rw [pending_map, pending_map]
    clear same
    induction fields generalizing fields' with
    | nil =>
      cases fields' with
      | nil => rfl
      | cons _ _ => simp [sameFields] at alike
    | cons field rest others =>
      obtain ⟨key, child⟩ := field
      cases fields' with
      | nil => simp [sameFields] at alike
      | cons field' rest' =>
        obtain ⟨key', child'⟩ := field'
        simp only [sameFields, Bool.and_eq_true, beq_iff_eq] at alike
        rw [fieldsPending, fieldsPending, ih (key, child) List.mem_cons_self alike.1.2,
          others (fun field member _ => ih field (List.mem_cons_of_mem _ member)) rest' alike.2]
  | leaf value annotations source notList notMap =>
    obtain ⟨value', annotations', source'⟩ := b
    have alike := (Node.same_iff.mp same).1
    cases value <;> cases value' <;> simp_all [Value.same, pending, Value.pending]

/-! ### Reading -/

theorem inherited_of_tame : Inherited (Node.Tame written) where
  item tame := Value.tame_list.mp tame.value
  field tame field member := (Value.Tame.fields tame.value field member).2.1

/-- What is read out of tame trees and scopes is tame. -/
theorem inherited_tame : InheritedInScopes (Node.Tame true) Scope.Tame where
  toInherited := inherited_of_tame
  lambda tame := (Lambda.tame_iff.mp (Value.tame_lambda.mp tame.value)).2.1
  root tame := (Document.tame_iff.mp (Scope.tame_iff.mp tame).1).1
  stub tame := (Document.tame_iff.mp (Scope.tame_iff.mp tame).1).2.1
  named tame := (Scope.tame_iff.mp tame).2.1
  outer tame := (Scope.tame_iff.mp tame).2.2

theorem gathered_tame : Gathered (Node.Tame true) where
  plain inside := Node.tame_plain.mpr (Value.tame_list.mpr inside)
  append tame more := Node.tame_iff.mpr (Value.tame_list.mpr fun item member =>
    (List.mem_append.mp member).elim (Value.tame_list.mp tame.value item) (more item))

/-- Binding tame arguments to a tame lambda gives tame slots. -/
theorem Lambda.Tame.bindArguments {l : Lambda} {args : List ArgumentValue} {slots : Slots}
    (tame : l.Tame) (arguments : ∀ argument ∈ args, argument.Has (Node.Tame true))
    (bound : l.bindArguments args = .ok slots) : ∀ slot ∈ slots, slot.2.Tame true :=
  Lambda.bindArguments_has gathered_tame (Lambda.tame_iff.mp tame).2.2 arguments bound

theorem Lambda.Tame.curry {l l' : Lambda} {args : List ArgumentValue} (tame : l.Tame)
    (arguments : ∀ argument ∈ args, argument.Has (Node.Tame true)) (curried : l.curry args = .ok l') :
    l'.Tame := by
  obtain ⟨slots, bound, rfl⟩ := Lambda.eq_of_curry curried
  obtain ⟨expr, scope, -⟩ := Lambda.tame_iff.mp tame
  exact Lambda.tame_iff.mpr ⟨expr, scope, tame.bindArguments arguments bound⟩

/-- The expression of a node of a tame document is tame, and the document is one as written. -/
theorem Node.Tame.expr? {node : Node} {e : Expr} (tame : node.Tame written)
    (reads : node.expr? = some e) : written = true ∧ e.Tame := by
  obtain ⟨value, annotations, source⟩ := node
  have inside := tame.value
  cases value with
  | expression e' =>
    cases reads
    exact inside
  | string text =>
    simp only [Node.expr?] at reads
    rcases inside with bare | ⟨asWritten, e', classified, whole⟩
    · rw [Embedded.classify_of_isBare bare] at reads
      cases reads
    · rw [classified] at reads
      cases reads
      exact ⟨asWritten, whole⟩
  | _ => cases reads

theorem Node.expr?_of_tame_false {node : Node} (tame : node.Tame false) : node.expr? = none := by
  cases reads : node.expr? with
  | none => rfl
  | some e => cases (tame.expr? reads).1

theorem Node.pending_of_expr? {node : Node} {e : Expr} (reads : node.expr? = some e) :
    node.pending = 1 := by
  obtain ⟨value, annotations, source⟩ := node
  cases value with
  | expression e' => rfl
  | string text =>
    simp only [Node.expr?] at reads
    split at reads
    · next classified =>
      rw [pending, Value.pending, if_pos (Embedded.isUnread_iff_classify.mpr (.inl ⟨_, classified⟩))]
    · cases reads
  | _ => cases reads

theorem FieldTame.tame {field : String × Node} (tame : FieldTame written field) :
    field.2.Tame written := tame.2.1

theorem FieldTame.bare {field : String × Node} (tame : FieldTame written field) :
    isBare field.1 = true := tame.1

theorem FieldTame.asWritten {field : String × Node} (tame : FieldTame written field) :
    FieldTame true field := ⟨tame.1, tame.2.1.asWritten, tame.2.2⟩

/-- Computed fields under a directive key are still. -/
theorem FieldTame.still {field : String × Node} (tame : FieldTame false field)
    (directive : field.1 = directiveKey) : field.2.Still := by
  refine (tame.2.2 directive).resolve_left ?_
  rw [Node.expr?_of_tame_false tame.2.1]
  simp

end Cascade
