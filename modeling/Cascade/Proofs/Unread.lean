import Cascade.Flow.Apply
import Cascade.Node.Json
import Cascade.Proofs.Embedded
import Cascade.Proofs.PassSteps
import Cascade.Proofs.SoundFlow

/-!
# Unread strings in settled trees

A report of a settled tree that lists nothing means that no expression and no diagnostic is left in
the tree. Strings that are still to be read may be left, since reports look at a string only if it
has an error of its own. There are two ways: a directive is copied from pass to pass, and a pass may
put back what it evaluated. This module shows that there is no third.

## Main definitions

* `Node.hasUnread`, `Node.hidesUnread`: some string, or some string at or below a directive, is
  still to be read.
* `Node.isReported`: some node of the tree is listed in reports.
* `Reproduces`: a pass puts a string that it reads, or a map whose control it runs, back as it was.

## Main statements

* `isResolved_iff_of_settle`: exactly when a settled tree without a report is resolved.
-/

namespace Cascade

/-! ### Unread strings -/

mutual

/-- Some string of the tree is still to be read. -/
def Node.hasUnread : Node → Bool
  | ⟨value, _, _⟩ => Value.hasUnread value

/-- Some string of the value is still to be read. -/
def Value.hasUnread : Value → Bool
  | .string text => Embedded.isUnread text
  | .list items => itemsHaveUnread items
  | .map fields => fieldsHaveUnread fields
  | _ => false

/-- Some string in a list of trees is still to be read. -/
def itemsHaveUnread : List Node → Bool
  | [] => false
  | item :: rest => item.hasUnread || itemsHaveUnread rest

/-- Some string in the fields of a map is still to be read. -/
def fieldsHaveUnread : List (String × Node) → Bool
  | [] => false
  | (_, child) :: rest => child.hasUnread || fieldsHaveUnread rest

end

mutual

/-- Some string at or below a directive of the tree is still to be read. -/
def Node.hidesUnread : Node → Bool
  | ⟨value, _, _⟩ => Value.hidesUnread value

/-- Some string at or below a directive in the value is still to be read. -/
def Value.hidesUnread : Value → Bool
  | .list items => itemsHideUnread items
  | .map fields => fieldsHideUnread fields
  | _ => false

/-- Some string at or below a directive in a list of trees is still to be read. -/
def itemsHideUnread : List Node → Bool
  | [] => false
  | item :: rest => item.hidesUnread || itemsHideUnread rest

/-- Some string at or below a directive in the fields of a map, or in its own directive, is still to
be read. -/
def fieldsHideUnread : List (String × Node) → Bool
  | [] => false
  | (key, child) :: rest =>
    (if key = directiveKey then child.hasUnread else child.hidesUnread) || fieldsHideUnread rest

end

mutual

/-- Reports list the node or a node below it. -/
def Node.isReported : Node → Bool
  | node@⟨value, _, _⟩ => (Report.expression? node).isSome || Value.isReported value

/-- Reports list a node in the value. -/
def Value.isReported : Value → Bool
  | .list items => itemsReported items
  | .map fields => fieldsReported fields
  | _ => false

/-- Reports list a node of one of the trees. -/
def itemsReported : List Node → Bool
  | [] => false
  | item :: rest => item.isReported || itemsReported rest

/-- Reports list a node in one of the fields. -/
def fieldsReported : List (String × Node) → Bool
  | [] => false
  | (_, child) :: rest => child.isReported || fieldsReported rest

end

theorem itemsHaveUnread_eq_any (items : List Node) :
    itemsHaveUnread items = items.any Node.hasUnread := by
  induction items with
  | nil => rw [itemsHaveUnread, List.any_nil]
  | cons item rest ih => rw [itemsHaveUnread, List.any_cons, ih]

theorem fieldsHaveUnread_eq_any (fields : Fields Node) :
    fieldsHaveUnread fields = fields.any fun field => field.2.hasUnread := by
  induction fields with
  | nil => rw [fieldsHaveUnread, List.any_nil]
  | cons field rest ih => rw [fieldsHaveUnread, List.any_cons, ih]

theorem itemsHideUnread_eq_any (items : List Node) :
    itemsHideUnread items = items.any Node.hidesUnread := by
  induction items with
  | nil => rw [itemsHideUnread, List.any_nil]
  | cons item rest ih => rw [itemsHideUnread, List.any_cons, ih]

theorem fieldsHideUnread_eq_any (fields : Fields Node) :
    fieldsHideUnread fields = fields.any fun field =>
      if field.1 = directiveKey then field.2.hasUnread else field.2.hidesUnread := by
  induction fields with
  | nil => rw [fieldsHideUnread, List.any_nil]
  | cons field rest ih => rw [fieldsHideUnread, List.any_cons, ih]

theorem itemsReported_eq_any (items : List Node) :
    itemsReported items = items.any Node.isReported := by
  induction items with
  | nil => rw [itemsReported, List.any_nil]
  | cons item rest ih => rw [itemsReported, List.any_cons, ih]

theorem fieldsReported_eq_any (fields : Fields Node) :
    fieldsReported fields = fields.any fun field => field.2.isReported := by
  induction fields with
  | nil => rw [fieldsReported, List.any_nil]
  | cons field rest ih => rw [fieldsReported, List.any_cons, ih]

/-- What a directive hides is in the tree. -/
theorem Node.hasUnread_of_hidesUnread {node : Node} (hides : node.hidesUnread = true) :
    node.hasUnread = true := by
  induction node using Node.treeInduction with
  | list items annotations source ih =>
    rw [hidesUnread, Value.hidesUnread, itemsHideUnread_eq_any, List.any_eq_true] at hides
    rw [hasUnread, Value.hasUnread, itemsHaveUnread_eq_any, List.any_eq_true]
    obtain ⟨item, member, below⟩ := hides
    exact ⟨item, member, ih item member below⟩
  | map fields annotations source ih =>
    rw [hidesUnread, Value.hidesUnread, fieldsHideUnread_eq_any, List.any_eq_true] at hides
    rw [hasUnread, Value.hasUnread, fieldsHaveUnread_eq_any, List.any_eq_true]
    obtain ⟨field, member, below⟩ := hides
    split at below
    · exact ⟨field, member, below⟩
    · exact ⟨field, member, ih field member below⟩
  | leaf value annotations source notList notMap =>
    cases value <;> simp_all [hidesUnread, Value.hidesUnread]

/-! ### Trees that look the same -/

theorem any_of_sameNodes {f : Node → Bool} {items items' : List Node}
    (each : ∀ item ∈ items, ∀ other, item.same other = true → f item = f other)
    (same : sameNodes items items' = true) : items.any f = items'.any f := by
  induction items generalizing items' with
  | nil =>
    cases items' with
    | nil => rfl
    | cons _ _ => simp [sameNodes] at same
  | cons item rest ih =>
    cases items' with
    | nil => simp [sameNodes] at same
    | cons item' rest' =>
      rw [sameNodes, Bool.and_eq_true] at same
      rw [List.any_cons, List.any_cons, each item List.mem_cons_self item' same.1,
        ih (fun item member => each item (List.mem_cons_of_mem _ member)) same.2]

theorem any_of_sameFields {f : String × Node → Bool} {fields fields' : Fields Node}
    (each : ∀ field ∈ fields, ∀ other, field.2.same other = true → f field = f (field.1, other))
    (same : sameFields fields fields' = true) : fields.any f = fields'.any f := by
  induction fields generalizing fields' with
  | nil =>
    cases fields' with
    | nil => rfl
    | cons _ _ => simp [sameFields] at same
  | cons field rest ih =>
    obtain ⟨key, child⟩ := field
    cases fields' with
    | nil => simp [sameFields] at same
    | cons field' rest' =>
      obtain ⟨key', child'⟩ := field'
      simp only [sameFields, Bool.and_eq_true, beq_iff_eq] at same
      obtain ⟨⟨rfl, alike⟩, others⟩ := same
      rw [List.any_cons, List.any_cons, each (key, child) List.mem_cons_self child' alike,
        ih (fun field member => each field (List.mem_cons_of_mem _ member)) others]

/-- Nodes that look the same have the same annotations and look the same inside. -/
theorem Node.same_iff {a b : Node} : a.same b = true ↔
    a.value.same b.value = true ∧ a.annotations = b.annotations ∧ a.source = b.source := by
  obtain ⟨v, annotations, source⟩ := a
  obtain ⟨v', annotations', source'⟩ := b
  simp only [Node.same, Bool.and_eq_true, beq_iff_eq, and_assoc]

theorem Value.eq_list_of_same {items : List Node} {value : Value}
    (same : (Value.list items).same value = true) :
    ∃ items', value = .list items' ∧ sameNodes items items' = true := by
  cases value with
  | list items' => exact ⟨items', rfl, by simpa [Value.same] using same⟩
  | _ => simp [Value.same] at same

theorem Value.eq_map_of_same {fields : Fields Node} {value : Value}
    (same : (Value.map fields).same value = true) :
    ∃ fields', value = .map fields' ∧ sameFields fields fields' = true := by
  cases value with
  | map fields' => exact ⟨fields', rfl, by simpa [Value.same] using same⟩
  | _ => simp [Value.same] at same

theorem Node.hasUnread_of_same {a b : Node} (same : a.same b = true) :
    a.hasUnread = b.hasUnread := by
  induction a using Node.treeInduction generalizing b with
  | list items annotations source ih =>
    obtain ⟨value', annotations', source'⟩ := b
    obtain ⟨items', rfl, alike⟩ := Value.eq_list_of_same (Node.same_iff.mp same).1
    rw [hasUnread, hasUnread, Value.hasUnread, Value.hasUnread, itemsHaveUnread_eq_any,
      itemsHaveUnread_eq_any]
    exact any_of_sameNodes (fun item member other => ih item member) alike
  | map fields annotations source ih =>
    obtain ⟨value', annotations', source'⟩ := b
    obtain ⟨fields', rfl, alike⟩ := Value.eq_map_of_same (Node.same_iff.mp same).1
    rw [hasUnread, hasUnread, Value.hasUnread, Value.hasUnread, fieldsHaveUnread_eq_any,
      fieldsHaveUnread_eq_any]
    exact any_of_sameFields (fun field member other => ih field member) alike
  | leaf value annotations source notList notMap =>
    obtain ⟨value', annotations', source'⟩ := b
    have alike := (Node.same_iff.mp same).1
    cases value <;> cases value' <;> simp_all [Value.same, hasUnread, Value.hasUnread]

theorem Node.hidesUnread_of_same {a b : Node} (same : a.same b = true) :
    a.hidesUnread = b.hidesUnread := by
  induction a using Node.treeInduction generalizing b with
  | list items annotations source ih =>
    obtain ⟨value', annotations', source'⟩ := b
    obtain ⟨items', rfl, alike⟩ := Value.eq_list_of_same (Node.same_iff.mp same).1
    rw [hidesUnread, hidesUnread, Value.hidesUnread, Value.hidesUnread, itemsHideUnread_eq_any,
      itemsHideUnread_eq_any]
    exact any_of_sameNodes (fun item member other => ih item member) alike
  | map fields annotations source ih =>
    obtain ⟨value', annotations', source'⟩ := b
    obtain ⟨fields', rfl, alike⟩ := Value.eq_map_of_same (Node.same_iff.mp same).1
    rw [hidesUnread, hidesUnread, Value.hidesUnread, Value.hidesUnread, fieldsHideUnread_eq_any,
      fieldsHideUnread_eq_any]
    refine any_of_sameFields (fun field member other alike => ?_) alike
    rw [Node.hasUnread_of_same alike, ih field member alike]
  | leaf value annotations source notList notMap =>
    obtain ⟨value', annotations', source'⟩ := b
    have alike := (Node.same_iff.mp same).1
    cases value <;> cases value' <;> simp_all [Value.same, hidesUnread, Value.hidesUnread]

theorem Node.isReported_of_same {a b : Node} (same : a.same b = true) :
    a.isReported = b.isReported := by
  induction a using Node.treeInduction generalizing b with
  | list items annotations source ih =>
    obtain ⟨value', annotations', source'⟩ := b
    obtain ⟨alike, rfl, rfl⟩ := Node.same_iff.mp same
    obtain ⟨items', rfl, inside⟩ := Value.eq_list_of_same alike
    have below : items.any isReported = items'.any isReported :=
      any_of_sameNodes (fun item member other => ih item member) inside
    rw [isReported, isReported, Value.isReported, Value.isReported, itemsReported_eq_any,
      itemsReported_eq_any, below]
    simp only [Report.expression?, apply_ite Option.isSome, Option.isSome_some, Option.isSome_none]
  | map fields annotations source ih =>
    obtain ⟨value', annotations', source'⟩ := b
    obtain ⟨alike, rfl, rfl⟩ := Node.same_iff.mp same
    obtain ⟨fields', rfl, inside⟩ := Value.eq_map_of_same alike
    have below : (fields.any fun field => field.2.isReported) =
        fields'.any fun field => field.2.isReported :=
      any_of_sameFields (fun field member other => ih field member) inside
    rw [isReported, isReported, Value.isReported, Value.isReported, fieldsReported_eq_any,
      fieldsReported_eq_any, below]
    simp only [Report.expression?, apply_ite Option.isSome, Option.isSome_some, Option.isSome_none]
  | leaf value annotations source notList notMap =>
    obtain ⟨value', annotations', source'⟩ := b
    obtain ⟨alike, rfl, rfl⟩ := Node.same_iff.mp same
    cases value <;> cases value' <;>
      simp_all [Value.same, isReported, Value.isReported, Report.expression?]

/-! ### Reports -/

theorem entriesOf_eq_nil_iff {defaultKey : String} {node : Node} (path : List String) :
    Report.entriesOf defaultKey node path = [] ↔ node.isReported = false := by
  have entry (node : Node) (path : List String) :
      (Report.entryOf? node path).toList = [] ↔ (Report.expression? node).isSome = false := by
    rw [Report.entryOf?]
    cases Report.expression? node <;> simp
  induction node using Node.treeInduction generalizing path with
  | list items annotations source ih =>
    have inside : ∀ key index, Report.entriesOfItems defaultKey key index items path = [] ↔
        items.any Node.isReported = false := by
      intro key
      induction items with
      | nil => simp [Report.entriesOfItems]
      | cons item rest others =>
        intro index
        have first (path : List String) : Report.entriesOf defaultKey item path = [] ↔
            item.isReported = false := ih item List.mem_cons_self path
        rw [Report.entriesOfItems, List.append_eq_nil_iff, first,
          others (fun item member => ih item (List.mem_cons_of_mem _ member)), List.any_cons,
          Bool.or_eq_false_iff]
    rw [Report.entriesOf, List.append_eq_nil_iff, entry, Report.entriesOfValue, inside,
      Node.isReported, Value.isReported, itemsReported_eq_any, Bool.or_eq_false_iff]
  | map fields annotations source ih =>
    have inside : Report.entriesOfFields defaultKey fields path = [] ↔
        (fields.any fun field => field.2.isReported) = false := by
      induction fields with
      | nil => simp [Report.entriesOfFields]
      | cons field rest others =>
        have first (path : List String) : Report.entriesOf defaultKey field.2 path = [] ↔
            field.2.isReported = false := ih field List.mem_cons_self path
        rw [Report.entriesOfFields, List.append_eq_nil_iff, first,
          others (fun field member => ih field (List.mem_cons_of_mem _ member)), List.any_cons,
          Bool.or_eq_false_iff]
    rw [Report.entriesOf, List.append_eq_nil_iff, entry, Report.entriesOfValue, inside,
      Node.isReported, Value.isReported, fieldsReported_eq_any, Bool.or_eq_false_iff]
  | leaf value annotations source notList notMap =>
    have nothing (key : String) : Report.entriesOfValue defaultKey key value path = [] := by
      cases value <;> simp_all [Report.entriesOfValue]
    have unlisted : Value.isReported value = false := by
      cases value <;> simp_all [Value.isReported]
    rw [Report.entriesOf, nothing, List.append_nil, entry, Node.isReported, unlisted, Bool.or_false]

/-- A report is empty if it lists no node of the tree. -/
theorem isEmpty_collect_iff {defaultKey : String} {tree : Node} :
    (Report.collect tree defaultKey).isEmpty = true ↔ tree.isReported = false := by
  rw [Report.collect, Report.isEmpty, Report.sorted, List.isEmpty_iff,
    ← List.length_eq_zero_iff, List.length_mergeSort, List.length_eq_zero_iff, entriesOf_eq_nil_iff]

/-- A sound tree that no report lists is resolved, but for strings that are still to be read. -/
theorem isResolved_of_sound {node : Node} (sound : node.Sound) (unreported : node.isReported = false) :
    node.isResolved = !node.hasUnread := by
  induction node using Node.treeInduction with
  | list items annotations source ih =>
    have parts := Value.sound_list.mp sound.value
    have shown := (Node.sound_iff.mp sound).1
    rw [Node.isReported, Value.isReported, itemsReported_eq_any, Bool.or_eq_false_iff,
      List.any_eq_false] at unreported
    have inside : Node.allResolved items = !items.any Node.hasUnread := by
      have each := fun item member =>
        ih item member (parts item member) (by simpa using unreported.2 item member)
      clear ih parts unreported sound shown
      induction items with
      | nil => rfl
      | cons item rest others =>
        rw [Node.allResolved, List.any_cons, each item List.mem_cons_self,
          others (fun item member => each item (List.mem_cons_of_mem _ member)), Bool.not_or]
    rw [Node.isResolved, Node.valueResolved, Node.hasUnread, Value.hasUnread,
      itemsHaveUnread_eq_any, inside]
    simp_all [Value.shows, Report.expression?]
  | map fields annotations source ih =>
    have parts := Value.sound_map.mp sound.value
    have shown := (Node.sound_iff.mp sound).1
    rw [Node.isReported, Value.isReported, fieldsReported_eq_any, Bool.or_eq_false_iff,
      List.any_eq_false] at unreported
    have inside : Node.allFieldsResolved fields = !fields.any fun field => field.2.hasUnread := by
      have each := fun field member =>
        ih field member (parts field member) (by simpa using unreported.2 field member)
      clear ih parts unreported sound shown
      induction fields with
      | nil => rfl
      | cons field rest others =>
        rw [Node.allFieldsResolved, List.any_cons, each field List.mem_cons_self,
          others (fun field member => each field (List.mem_cons_of_mem _ member)), Bool.not_or]
    rw [Node.isResolved, Node.valueResolved, Node.hasUnread, Value.hasUnread,
      fieldsHaveUnread_eq_any, inside]
    simp_all [Value.shows, Report.expression?]
  | leaf value annotations source notList notMap =>
    have shown := (Node.sound_iff.mp sound).1
    cases value <;> simp_all [Value.shows, Node.isReported, Report.expression?, Node.isResolved,
      Node.valueResolved, Node.hasUnread, Value.hasUnread]

/-! ### Strings that passes put back -/

/-- At some place below this one, outside all directives, a pass puts back what it evaluates: a
string that evaluates to itself, or a map with an unread string whose control yields that map
again. -/
inductive Reproduces (engine : Engine) (deeper : Deeper) : Node → Binding → Prop
  | text {text : String} {annotations : Annotations} {source : String} {b : Binding} {e : Expr}
      {world world' : World} {r : Resolved}
      (reads : Embedded.classify text = .expression e)
      (yields : outcomeOf engine deeper e b world = some (.ok r, world'))
      (same : r.value = .string text) :
      Reproduces engine deeper ⟨.string text, annotations, source⟩ b
  | control {fields : Fields Node} {node result : Node} {b : Binding} {fuel : Nat}
      {overridable : Bool} {world world' : World}
      (isMap : node.value = .map fields) (carries : controlNames fields ≠ [])
      (unread : node.hasUnread = true)
      (flows : flowNode engine deeper fuel node b overridable world = some (some result, world'))
      (same : result.same node = true) :
      Reproduces engine deeper node b
  | item {items : List Node} {annotations : Annotations} {source : String} {b : Binding}
      {entry : Node} {segment : String} (member : entry ∈ items)
      (below : Reproduces engine deeper entry
        (b.entry segment (annotations.listKey engine.defaultKey))) :
      Reproduces engine deeper ⟨.list items, annotations, source⟩ b
  | field {fields : Fields Node} {annotations : Annotations} {source : String} {b : Binding}
      {key : String} {child : Node} (member : (key, child) ∈ fields)
      (below : Reproduces engine deeper child ((b.inside annotations).child key)) :
      Reproduces engine deeper ⟨.map fields, annotations, source⟩ b

section

variable {engine : Engine} {deeper : Deeper}

/-- What a pass puts back is in the tree. -/
theorem hasUnread_of_reproduces {node : Node} {b : Binding}
    (reproduces : Reproduces engine deeper node b) : node.hasUnread = true := by
  induction reproduces with
  | text reads =>
    rw [Node.hasUnread, Value.hasUnread, Embedded.isUnread_iff_classify]
    exact .inl ⟨_, reads⟩
  | control _ _ unread => exact unread
  | item member _ ih =>
    rw [Node.hasUnread, Value.hasUnread, itemsHaveUnread_eq_any, List.any_eq_true]
    exact ⟨_, member, ih⟩
  | field member _ ih =>
    rw [Node.hasUnread, Value.hasUnread, fieldsHaveUnread_eq_any, List.any_eq_true]
    exact ⟨_, member, ih⟩

/-! ### What a pass leaves unread -/

/-- A directive that can be read, or is read, is reported or unread. -/
theorem expr?_eq_none {node : Node} (unreported : node.isReported = false)
    (read : node.hasUnread = false) : node.expr? = none := by
  obtain ⟨value, annotations, source⟩ := node
  cases value with
  | string text =>
    unfold Node.expr?
    simp only
    split
    · next e reads =>
      have unread := Embedded.isUnread_iff_classify.mpr (.inl ⟨e, reads⟩)
      rw [Node.hasUnread, Value.hasUnread, unread] at read
      cases read
    · rfl
  | expression e => simp [Node.isReported, Report.expression?] at unreported
  | _ => rfl

theorem listDirective?_eq_none {entry : Node} (unreported : entry.isReported = false)
    (read : entry.hidesUnread = false) : entry.listDirective? = none := by
  obtain ⟨value, annotations, source⟩ := entry
  unfold Node.listDirective?
  split
  · next key directive shape =>
    cases shape
    split
    · next same =>
      simp only [Node.isReported, Value.isReported, fieldsReported_eq_any, Bool.or_eq_false_iff,
        List.any_cons, List.any_nil] at unreported
      simp only [Node.hidesUnread, Value.hidesUnread, fieldsHideUnread_eq_any, List.any_cons,
        List.any_nil, same, if_true, Bool.or_false] at read
      exact expr?_eq_none unreported.2.1 read
    · rfl
  · rfl

theorem length_of_sameFields {fields fields' : Fields Node} (same : sameFields fields fields' = true) :
    fields.length = fields'.length := by
  induction fields generalizing fields' with
  | nil =>
    cases fields' with
    | nil => rfl
    | cons _ _ => simp [sameFields] at same
  | cons field rest ih =>
    obtain ⟨key, child⟩ := field
    cases fields' with
    | nil => simp [sameFields] at same
    | cons field' rest' =>
      rw [sameFields, Bool.and_eq_true] at same
      rw [List.length_cons, List.length_cons, ih same.2]

theorem length_of_sameNodes {items items' : List Node} (same : sameNodes items items' = true) :
    items.length = items'.length := by
  induction items generalizing items' with
  | nil =>
    cases items' with
    | nil => rfl
    | cons _ _ => simp [sameNodes] at same
  | cons item rest ih =>
    cases items' with
    | nil => simp [sameNodes] at same
    | cons item' rest' =>
      rw [sameNodes, Bool.and_eq_true] at same
      rw [List.length_cons, List.length_cons, ih same.2]

section

variable {below : FlowBelow} {b : Binding} {overridable : Bool} {world world' : World}

theorem length_flowFields {fields flowed : Fields Node}
    (yields : flowFields below b overridable fields world = some (flowed, world')) :
    flowed.length ≤ fields.length := by
  induction fields generalizing flowed world with
  | nil =>
    cases yields
    exact Nat.le_refl 0
  | cons field rest ih =>
    obtain ⟨first, others, middle, -, later, rfl⟩ := flowFields_cons yields
    have shorter := ih later
    cases first <;> simp <;> omega

/-- If the fields of a map look the same after flowing, each of them does. -/
theorem same_of_flowFields {fields flowed : Fields Node}
    (yields : flowFields below b overridable fields world = some (flowed, world'))
    (same : sameFields flowed fields = true) :
    ∀ field ∈ fields, field.1 ≠ directiveKey → ∃ child before after,
      below field.2 (b.child field.1) overridable before = some (some child, after) ∧
        child.same field.2 = true := by
  induction fields generalizing flowed world with
  | nil => exact fun _ member => absurd member List.not_mem_nil
  | cons field rest ih =>
    obtain ⟨key, written⟩ := field
    obtain ⟨first, others, middle, start, later, rfl⟩ := flowFields_cons yields
    have shorter := length_flowFields later
    have equal := length_of_sameFields same
    cases first with
    | none =>
      simp only [Option.map_none, Option.toList_none, List.nil_append, List.length_cons] at equal
      omega
    | some child =>
      simp only [Option.map_some, Option.toList_some, List.cons_append, List.nil_append,
        sameFields, Bool.and_eq_true] at same
      intro field member ordinary
      rcases List.mem_cons.mp member with rfl | inRest
      · rw [if_neg ordinary] at start
        exact ⟨child, world, middle, start, same.1.2⟩
      · exact ih later same.2 field inRest ordinary

/-- If the entries of a list look the same after flowing, each of them does. -/
theorem same_of_flowEntries {key : String} {index : Nat} {items flowed : List Node}
    (plain : ∀ item ∈ items, item.listDirective? = none)
    (yields : flowEntries below key b overridable index items world = some (flowed, world'))
    (same : sameNodes flowed items = true) :
    ∀ item ∈ items, ∃ segment child before after,
      below item (b.entry segment key) overridable before = some (some child, after) ∧
        child.same item = true := by
  induction items generalizing flowed world index with
  | nil => exact fun _ member => absurd member List.not_mem_nil
  | cons entry rest ih =>
    have others := fun item member => plain item (List.mem_cons_of_mem entry member)
    obtain ⟨first, flowedRest, middle, start, later, rfl⟩ :=
      flowEntries_cons (plain entry List.mem_cons_self) yields
    have shorter := length_flowEntries others later
    have equal := length_of_sameNodes same
    cases first with
    | none =>
      simp only [Option.toList_none, List.nil_append, List.length_cons] at equal
      omega
    | some child =>
      simp only [Option.toList_some, List.cons_append, List.nil_append, sameNodes,
        Bool.and_eq_true] at same
      intro item member
      rcases List.mem_cons.mp member with rfl | inRest
      · exact ⟨_, child, world, middle, start, same.1⟩
      · exact ih others later same.2 item inRest

end

/-! ### The string that is left -/

section

variable {b : Binding} {overridable : Bool} {world world' : World}

/-- A string that is unread before and after a pass without stubs evaluates to itself. -/
theorem reproduces_of_string {text : String} {annotations : Annotations} {source : String}
    {fuel : Nat} {result : Node} (noStubs : b.document.stubs = []) (noState : b.document.state = none)
    (unread : Embedded.isUnread text = true)
    (flows : flowNode engine deeper fuel ⟨.string text, annotations, source⟩ b overridable world =
      some (some result, world'))
    (same : result.same ⟨.string text, annotations, source⟩ = true)
    (unreported : result.isReported = false) :
    Reproduces engine deeper ⟨.string text, annotations, source⟩ b := by
  obtain ⟨alike, -, -⟩ := Node.same_iff.mp same
  cases fuel with
  | zero => cases flows
  | succ fuel =>
    rw [flowNode] at flows
    simp only [flowString] at flows
    rcases Embedded.isUnread_iff_classify.mp unread with ⟨e, reads⟩ | ⟨problem, reads⟩
    · rw [reads] at flows
      simp only [flowExpression, expressionOverride?, overrideValue?_of_noStubs noStubs,
        Option.map_none, ite_self, expressionState?, Binding.stateValue?, noState,
        Option.bind_none] at flows
      obtain ⟨outcome, middle, yields, rest⟩ := Run.eq_of_bind flows
      cases outcome with
      | ok r =>
        have resolved := Run.eq_of_pure rest
        unfold resolvedNode at resolved
        split at resolved
        · cases resolved
        · cases resolved
          refine .text reads yields ?_
          cases shape : r.value <;> simp_all [Value.same]
      | error u =>
        have still := Run.eq_of_pure rest
        cases still
        simp [Node.stillExpression, Node.withValue, Node.withDiagnostic, Value.same] at alike
    · rw [reads] at flows
      simp only [stubOverride?, overrideValue?_of_noStubs noStubs, Option.map_none, ite_self]
        at flows
      have marked := Run.eq_of_pure flows
      cases marked
      simp [Node.isReported, Report.expression?] at unreported

/-- What is unread after a pass that changes nothing, and stands outside all directives, is what the
pass puts back. -/
theorem reproduces_of_unread {node result : Node} {fuel : Nat}
    (noStubs : b.document.stubs = []) (noState : b.document.state = none)
    (unread : node.hasUnread = true) (shown : node.hidesUnread = false)
    (flows : flowNode engine deeper fuel node b overridable world = some (some result, world'))
    (same : result.same node = true) (unreported : node.isReported = false) :
    Reproduces engine deeper node b := by
  induction node using Node.treeInduction generalizing b overridable world world' result fuel with
  | list items annotations source ih =>
    rw [Node.hasUnread, Value.hasUnread, itemsHaveUnread_eq_any, List.any_eq_true] at unread
    simp only [Node.hidesUnread, Value.hidesUnread, itemsHideUnread_eq_any, List.any_eq_false,
      Bool.not_eq_true] at shown
    simp only [Node.isReported, Value.isReported, itemsReported_eq_any, Bool.or_eq_false_iff,
      List.any_eq_false, Bool.not_eq_true] at unreported
    have plain : ∀ item ∈ items, item.listDirective? = none := fun item member =>
      listDirective?_eq_none (unreported.2 item member) (shown item member)
    cases fuel with
    | zero => cases flows
    | succ fuel =>
      rw [flowNode] at flows
      obtain ⟨flowed, yields, made⟩ := flowList_of_still
        (fun _ _ => stubOverride?_of_noStubs noStubs) plain flows
      cases made
      obtain ⟨item, member, open_⟩ := unread
      have alike := (Node.same_iff.mp same).1
      simp only [Value.same] at alike
      obtain ⟨segment, child, before, after, below, still⟩ :=
        same_of_flowEntries plain yields alike item member
      exact .item member (ih item member noStubs noState open_ (shown item member) below still
        (unreported.2 item member))
  | map fields annotations source ih =>
    have unreadMap := unread
    rw [Node.hasUnread, Value.hasUnread, fieldsHaveUnread_eq_any, List.any_eq_true] at unread
    simp only [Node.hidesUnread, Value.hidesUnread, fieldsHideUnread_eq_any, List.any_eq_false,
      Bool.not_eq_true] at shown
    simp only [Node.isReported, Value.isReported, fieldsReported_eq_any, Bool.or_eq_false_iff,
      List.any_eq_false, Bool.not_eq_true] at unreported
    by_cases noControl : controlNames fields = []
    · have noDirective : (Fields.find? fields directiveKey).bind Node.expr? = none := by
        rw [Option.bind_eq_none_iff]
        intro written found
        have member := Fields.mem_of_find? found
        have closed := shown _ member
        rw [if_pos rfl] at closed
        exact expr?_eq_none (unreported.2 _ member) closed
      cases fuel with
      | zero => cases flows
      | succ fuel =>
        rw [flowNode] at flows
        obtain ⟨flowed, yields, made⟩ := flowMap_of_still
          (fun _ => mapOverride?_of_noStubs noStubs) noState noDirective noControl flows
        cases made
        obtain ⟨field, member, open_⟩ := unread
        have visible := shown field member
        split at visible
        · rw [open_] at visible
          cases visible
        · next ordinary =>
          have alike := (Node.same_iff.mp same).1
          simp only [Value.same] at alike
          obtain ⟨child, before, after, below, still⟩ :=
            same_of_flowFields yields alike field member ordinary
          refine .field member (ih field member ?_ ?_ open_ visible below still
            (unreported.2 field member))
          · unfold Binding.inside
            split <;> exact noStubs
          · unfold Binding.inside
            split <;> exact noState
    · exact .control rfl noControl unreadMap flows same
  | leaf value annotations source notList notMap =>
    cases value with
    | string text =>
      rw [Node.hasUnread, Value.hasUnread] at unread
      exact reproduces_of_string noStubs noState unread flows same
        ((Node.isReported_of_same same).trans unreported)
    | list items => exact absurd rfl (notList items)
    | map fields => exact absurd rfl (notMap fields)
    | _ => simp [Node.hasUnread, Value.hasUnread] at unread

end

/-! ### Settled documents -/

/-- A run that settles ends with a pass that changes nothing. -/
theorem last_pass_of_settleWithin {s : Setting} {passes : Nat} {root tree : Node}
    {world world' : World}
    (settles : settleWithin engine deeper s passes root world = some (some tree, world')) :
    ∃ last middle, pass engine deeper s last middle = some (tree, world') ∧
      tree.same last = true := by
  induction passes generalizing root world with
  | zero => cases settles
  | succ passes ih =>
    rw [settleWithin] at settles
    obtain ⟨next, middle, flowed, rest⟩ := Run.eq_of_bind settles
    split at rest
    · next still =>
      cases rest
      exact ⟨root, world, flowed, still⟩
    · exact ih rest

/-- A pass that changes nothing removes nothing but a tree that is nil. -/
theorem flowNode_of_pass {s : Setting} {last tree : Node} {world world' : World}
    (flowed : pass engine deeper s last world = some (tree, world')) (same : tree.same last = true)
    (unread : last.hasUnread = true) :
    ∃ fuel, flowNode engine deeper fuel last (s.rootBinding last) s.overridable world =
      some (some tree, world') := by
  unfold pass at flowed
  obtain ⟨result, middle, yields, rest⟩ := Run.eq_of_bind flowed
  cases rest
  cases result with
  | some node => exact ⟨_, yields⟩
  | none =>
    rw [← Node.hasUnread_of_same same, Option.getD_none, Node.plain, Node.hasUnread] at unread
    simp [Value.hasUnread] at unread

end

/-! ### Documents of JSON -/

/-- A document without stubs that settles to a tree without a report carries no expression and no
diagnostic any more. It is resolved exactly if no unread string stands at or below a directive, and
if its last pass puts back nothing that it evaluates. -/
theorem isResolved_iff_of_settle (engine : Engine) (functions : engine.functions = Standard.functions)
    (controls : engine.controls = Control.standard) (source : String) (json : Json)
    (id : DocumentId) (overridable : Bool) (world world' : World) (tree : Node)
    (settles : settle engine (engine.below 0) { id, overridable } (Node.ofJson source json) world =
      some (some tree, world'))
    (unreported : (Report.collect tree engine.defaultKey).isEmpty = true) :
    tree.isResolved = !tree.hasUnread ∧
    ∃ last middle,
      pass engine (engine.below 0) { id, overridable } last middle = some (tree, world') ∧
      tree.same last = true ∧
      (tree.isResolved = true ↔ tree.hidesUnread = false ∧
        ¬Reproduces engine (engine.below 0) last
          (Setting.rootBinding { id, overridable } last)) := by
  have registered := Engine.sound_of_standard functions controls
  have nested : (engine.below 0).Sound := level_sound registered _ _
  have shared : Setting.Sound { id, overridable } :=
    ⟨trivial, by simp, by simp, by simp, by simp⟩
  have sound : tree.Sound :=
    settle_yields registered nested shared (sound_ofJson source json) world world' _ settles tree rfl
  rw [isEmpty_collect_iff] at unreported
  have resolved := isResolved_of_sound sound unreported
  obtain ⟨last, middle, flowed, same⟩ := last_pass_of_settleWithin settles
  refine ⟨resolved, last, middle, flowed, same, ?_⟩
  rw [resolved, Bool.not_eq_true', Node.hasUnread_of_same same, Node.hidesUnread_of_same same]
  constructor
  · intro read
    refine ⟨?_, fun reproduces => ?_⟩
    · rw [Bool.eq_false_iff]
      intro hides
      rw [Node.hasUnread_of_hidesUnread hides] at read
      cases read
    · rw [hasUnread_of_reproduces reproduces] at read
      cases read
  · rintro ⟨shown, nothing⟩
    rw [Bool.eq_false_iff]
    intro unread
    obtain ⟨fuel, yields⟩ := flowNode_of_pass flowed same unread
    exact nothing (reproduces_of_unread rfl rfl unread shown yields same
      ((Node.isReported_of_same same).symm.trans unreported))

/-- Whether the report of a settled tree is empty, and whether the tree is resolved. -/
def looks (defaultKey : String) (outcome : Option (Option Node × World)) : Option (Bool × Bool) :=
  outcome.bind fun settled => settled.1.map fun tree =>
    ((Report.collect tree defaultKey).isEmpty, tree.isResolved)

theorem exists_of_looks {defaultKey : String} {outcome : Option (Option Node × World)}
    {unreported resolved : Bool} (seen : looks defaultKey outcome = some (unreported, resolved)) :
    ∃ tree world', outcome = some (some tree, world') ∧
      (Report.collect tree defaultKey).isEmpty = unreported ∧ tree.isResolved = resolved := by
  obtain ⟨⟨settled, world'⟩, rfl, shown⟩ := Option.bind_eq_some_iff.mp seen
  obtain ⟨tree, rfl, alike⟩ := Option.map_eq_some_iff.mp shown
  obtain ⟨empty, whole⟩ := Prod.mk.inj alike
  exact ⟨tree, world', rfl, empty, whole⟩

/-- A document whose second field refers to its first. -/
def referringDocument : Json :=
  .object [("port", .int 80), ("public", .string "(( port ))")]

/-- The first pass evaluates the reference, and the second finds nothing left to put back. -/
theorem isResolved_referringDocument : ∃ tree world' last middle,
    settle Engine.standard (Engine.standard.below 0) { id := ⟨0, []⟩ }
      (Node.ofJson "template" referringDocument) {} = some (some tree, world') ∧
    (Report.collect tree Engine.standard.defaultKey).isEmpty = true ∧
    tree.hidesUnread = false ∧ tree.isResolved = true ∧ tree.hasUnread = false ∧
    pass Engine.standard (Engine.standard.below 0) { id := ⟨0, []⟩ } last middle =
      some (tree, world') ∧
    tree.same last = true ∧
    ¬Reproduces Engine.standard (Engine.standard.below 0) last
      (Setting.rootBinding { id := ⟨0, []⟩ } last) := by
  obtain ⟨tree, world', settles, unreported, resolved⟩ := exists_of_looks
    (show looks Engine.standard.defaultKey (settle Engine.standard (Engine.standard.below 0)
      { id := ⟨0, []⟩ } (Node.ofJson "template" referringDocument) {}) = some (true, true) by
        decide +kernel)
  obtain ⟨unread, last, middle, flowed, same, exactly⟩ :=
    isResolved_iff_of_settle Engine.standard rfl rfl "template" referringDocument ⟨0, []⟩ false {}
      world' tree settles unreported
  obtain ⟨visible, nothing⟩ := exactly.mp resolved
  rw [resolved, eq_comm, Bool.not_eq_true'] at unread
  exact ⟨tree, world', last, middle, settles, unreported, visible, resolved, unread, flowed, same,
    nothing⟩

/-- A document whose directive holds an expression that cannot be parsed. -/
def misreadDirective : Json :=
  .object [("<<", .string "(( ) ))")]

/-- No report lists the directive, and the settled document still has it. -/
theorem unreported_misreadDirective : ∃ tree world',
    settle Engine.standard (Engine.standard.below 0) { id := ⟨0, []⟩ }
      (Node.ofJson "template" misreadDirective) {} = some (some tree, world') ∧
    (Report.collect tree Engine.standard.defaultKey).isEmpty = true ∧
    tree.isResolved = false := by
  obtain ⟨tree, world', settles, unreported, resolved⟩ := exists_of_looks
    (show looks Engine.standard.defaultKey (settle Engine.standard (Engine.standard.below 0)
      { id := ⟨0, []⟩ } (Node.ofJson "template" misreadDirective) {}) = some (true, false) by
        decide +kernel)
  exact ⟨tree, world', settles, unreported, resolved⟩

end Cascade
