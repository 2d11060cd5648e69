import Cascade.Evaluation.Arguments
import Cascade.Evaluation.Reference
import Cascade.Proofs.PlainData
import Cascade.Proofs.Yields

/-!
# Properties that pass on to what is read

A property of nodes is inherited if it passes on from containers to what is in them. It is inherited
in scopes if a property of scopes comes with it that passes on to the documents, the stubs, the local
names and the outer scope, and that the scopes of lambdas have. Whatever names, paths, tags and
references lead to has such a property, too.

## Main definitions

* `Inherited`, `InheritedInScopes`: the properties.
* `ArgumentValue.Has`, `ArgumentBinding.Has`: all nodes of an argument, or of a binding in progress,
  have a property.

## Main statements

* `InheritedInScopes.explains_find`: references lead to nodes that have the property.
* `Lambda.bindArguments_has`: slots hold nodes that have the property.
-/

namespace Cascade

variable {N : Node → Prop} {S : Scope → Prop} {defaultKey : String}

theorem Explains.bind {α β : Type} {P : α → Prop} {Q : β → Prop} {x : Except Unresolved α}
    {next : α → Except Unresolved β} (first : Explains P x)
    (later : ∀ a, P a → Explains Q (next a)) : Explains Q (x >>= next) := by
  cases x with
  | ok a => exact later a first
  | error u => exact first

theorem Explains.mono {α : Type} {P Q : α → Prop} {x : Except Unresolved α} (explains : Explains P x)
    (weaker : ∀ a, P a → Q a) : Explains Q x := by
  cases x with
  | ok a => exact weaker a explains
  | error u => exact explains

/-! ### Trees -/

/-- What holds of a container holds of what is in it. -/
structure Inherited (N : Node → Prop) : Prop where
  item : ∀ {items annotations source}, N ⟨.list items, annotations, source⟩ → ∀ item ∈ items, N item
  field : ∀ {fields annotations source}, N ⟨.map fields, annotations, source⟩ →
    ∀ field ∈ fields, N field.2

namespace Inherited

theorem field? (inherited : Inherited N) {node child : Node} {key : String} (has : N node)
    (found : node.field? key = some child) : N child := by
  obtain ⟨value, annotations, source⟩ := node
  cases value with
  | map fields => exact inherited.field has _ (Fields.mem_of_find? found)
  | _ => cases found

theorem stepBy? (inherited : Inherited N) {node next : Node} {segment key : String} (has : N node)
    (step : node.stepBy? segment key = some next) : N next := by
  obtain ⟨value, annotations, source⟩ := node
  cases value with
  | map fields => exact inherited.field has _ (Fields.mem_of_find? step)
  | list items =>
    simp only [Node.stepBy?] at step
    refine inherited.item has next ?_
    split at step
    · obtain ⟨position, -, found⟩ := Option.bind_eq_some_iff.mp step
      exact List.mem_of_getElem? found
    · exact List.mem_of_find?_eq_some step
  | _ => cases step

theorem lookup? (inherited : Inherited N) {root node : Node} {path : List String} (has : N root)
    (found : root.lookup? path defaultKey = some node) : N node := by
  induction path generalizing root with
  | nil =>
    cases found
    exact has
  | cons segment rest ih =>
    rw [Node.lookup?_cons] at found
    obtain ⟨next, step, later⟩ := Option.bind_eq_some_iff.mp found
    exact ih (inherited.stepBy? has step) later

theorem lookupKeyed? (inherited : Inherited N) {root node : Node} {path : List String}
    {keys : List (Option String)} (has : N root)
    (found : root.lookupKeyed? defaultKey path keys = some node) : N node := by
  induction path generalizing root keys with
  | nil =>
    cases found
    exact has
  | cons segment rest ih =>
    rw [Node.lookupKeyed?] at found
    split at found
    · next next step => exact ih (inherited.stepBy? has step) found
    · cases found

theorem stubValue? (inherited : Inherited N) {b : Binding} {node : Node} {path : List String}
    (has : ∀ stub ∈ b.document.stubs, N stub)
    (found : b.stubValue? path defaultKey = some node) : N node := by
  obtain ⟨stub, member, inStub⟩ := List.exists_of_findSome?_eq_some found
  exact inherited.lookupKeyed? (has stub member) inStub

theorem overrideValue? (inherited : Inherited N) {b : Binding} {node : Node}
    (has : ∀ stub ∈ b.document.stubs, N stub)
    (found : b.overrideValue? defaultKey = some node) : N node := by
  obtain ⟨stub, member, inStub⟩ := List.mem_filterMap.mp (List.mem_of_find?_eq_some found)
  exact inherited.lookupKeyed? (has stub member) inStub

theorem stateValue? (inherited : Inherited N) {b : Binding} {node : Node}
    (has : ∀ state ∈ b.document.state, N state)
    (found : b.stateValue? defaultKey = some node) : N node := by
  obtain ⟨state, known, inState⟩ := Option.bind_eq_some_iff.mp found
  exact inherited.lookup? (has state known) inState

end Inherited

theorem findTagItems?_eq_findSome? (tag : String) (items : List Node) :
    findTagItems? tag items = items.findSome? (Node.findTag? tag) := by
  induction items with
  | nil => rw [findTagItems?, List.findSome?_nil]
  | cons item rest ih =>
    rw [findTagItems?, List.findSome?_cons, ih]
    cases item.findTag? tag <;> rfl

theorem findTagFields?_eq_findSome? (tag : String) (fields : Fields Node) :
    findTagFields? tag fields = fields.findSome? fun field => field.2.findTag? tag := by
  induction fields with
  | nil => rw [findTagFields?, List.findSome?_nil]
  | cons field rest ih =>
    rw [findTagFields?, List.findSome?_cons, ih]
    cases field.2.findTag? tag <;> rfl

theorem Inherited.findTag? (inherited : Inherited N) {tag : String} {root node : Node} (has : N root)
    (found : root.findTag? tag = some node) : N node := by
  induction root using Node.treeInduction with
  | list items annotations source ih =>
    rw [Node.findTag?] at found
    split at found
    · cases found
      exact has
    · rw [Value.findTag?, findTagItems?_eq_findSome?] at found
      obtain ⟨item, member, below⟩ := List.exists_of_findSome?_eq_some found
      exact ih item member (inherited.item has item member) below
  | map fields annotations source ih =>
    rw [Node.findTag?] at found
    split at found
    · cases found
      exact has
    · rw [Value.findTag?, findTagFields?_eq_findSome?] at found
      obtain ⟨field, member, below⟩ := List.exists_of_findSome?_eq_some found
      exact ih field member (inherited.field has field member) below
  | leaf value annotations source notList notMap =>
    rw [Node.findTag?] at found
    split at found
    · cases found
      exact has
    · cases value with
      | list items => exact absurd rfl (notList items)
      | map fields => exact absurd rfl (notMap fields)
      | _ => cases found

/-! ### Values of nodes -/

theorem explains_checkAvailable (name : String) (node : Node) :
    Explains (fun _ => True) (checkAvailable name node) := by
  rw [checkAvailable]
  split
  · rfl
  · split
    · rfl
    · split
      · rfl
      · trivial
    · trivial

/-- The value that a name stands for is that of its node, which is complete unless the node is taken
as it is. -/
theorem explains_nodeValue {name : String} {node : Node} {asItIs : Bool} :
    Explains (fun r => r.value = node.value ∧ (asItIs = false → node.isResolved = true))
      (nodeValue name node asItIs) := by
  refine (explains_checkAvailable name node).bind fun _ _ => ?_
  split
  · rfl
  · next complete =>
    refine ⟨rfl, ?_⟩
    rintro rfl
    simpa using complete

theorem Inherited.explains_walkPath (inherited : Inherited N) {node : Node} {seen path : List String}
    (has : N node) : Explains N (walkPath defaultKey node seen path) := by
  induction path generalizing node seen with
  | nil => exact has
  | cons segment rest ih =>
    refine (explains_checkAvailable (Path.render seen) node).bind fun _ _ => ?_
    split
    · next next step => exact ih (inherited.stepBy? has step)
    · rfl

/-! ### Scopes -/

/-- What holds of a scope holds of the nodes and the scopes that names can mean in it. -/
structure InheritedInScopes (N : Node → Prop) (S : Scope → Prop) : Prop extends Inherited N where
  lambda : ∀ {l annotations source}, N ⟨.lambda l, annotations, source⟩ → S l.scope
  root : ∀ {scope}, S scope → N scope.document.root
  stub : ∀ {scope}, S scope → ∀ stub ∈ scope.document.stubs, N stub
  named : ∀ {scope}, S scope → ∀ layer ∈ scope.locals, ∀ field ∈ layer, N field.2
  outer : ∀ {scope}, S scope → ∀ outer ∈ scope.outer, S outer

namespace InheritedInScopes

theorem rootScope (inherited : InheritedInScopes N S) :
    ∀ {scope : Scope}, S scope → S scope.rootScope
  | ⟨_, _, _, none⟩, has => has
  | ⟨_, _, _, some outer⟩, has => by
    rw [Scope.rootScope]
    exact rootScope inherited (inherited.outer has outer rfl)

theorem findTag? (inherited : InheritedInScopes N S) {scope : Scope} {tag : String} {node : Node}
    (has : S scope) (found : scope.document.findTag? tag = some node) : N node := by
  rw [Document.findTag?, findTagItems?_eq_findSome?] at found
  obtain ⟨tree, member, below⟩ := List.exists_of_findSome?_eq_some found
  refine inherited.toInherited.findTag? ?_ below
  rcases List.mem_cons.mp member with rfl | stub
  · exact inherited.root has
  · exact inherited.stub has tree stub

theorem findLocal? (inherited : InheritedInScopes N S) {scope : Scope} {name : String} {node : Node}
    (has : S scope) (found : Scope.findLocal? scope.locals name = some node) : N node := by
  obtain ⟨layer, member, inLayer⟩ := List.exists_of_findSome?_eq_some found
  exact inherited.named has layer member _ (Fields.mem_of_find? inLayer)

theorem explains_findTagged (inherited : InheritedInScopes N S) {tag : String} {path : List String}
    {scope : Scope} (has : S scope) :
    Explains N (Reference.findTagged defaultKey tag path scope) := by
  have outermost := inherited.rootScope has
  rw [Reference.findTagged]
  split
  · exact inherited.explains_walkPath (inherited.root outermost)
  · split
    · split
      · next tree known =>
        refine inherited.explains_walkPath ?_
        rcases List.mem_cons.mp (List.mem_of_getElem? known) with rfl | stub
        · exact inherited.root outermost
        · exact inherited.stub outermost tree stub
      · rfl
    · split
      · next node found => exact inherited.explains_walkPath (inherited.findTag? outermost found)
      · rfl

theorem findEnclosing? (inherited : Inherited N) {root node : Node} {anchor : List String}
    {name : String} (has : N root)
    (found : Reference.findEnclosing? defaultKey root anchor name = some node) : N node := by
  obtain ⟨depth, -, here⟩ := List.exists_of_findSome?_eq_some found
  obtain ⟨container, around, field⟩ := Option.bind_eq_some_iff.mp here
  exact inherited.field? (inherited.lookup? has around) field

/-- A search leads to nodes with the property if one in the scope of a lambda does. -/
theorem explains_search (inherited : InheritedInScopes N S) {first : String} {rest : List String}
    {definition : Scope → Except Unresolved Node}
    (defined : ∀ scope, S scope → Explains N (definition scope)) :
    ∀ scope : Scope, S scope →
      Explains N (Reference.search defaultKey first rest definition scope)
  | scope@⟨document, locals, anchor, outer⟩, has => by
    rw [Reference.search.eq_def]
    simp only
    split
    · next l annotations source own =>
      split at own
      · exact defined _ (inherited.lambda (inherited.findLocal? has own))
      · cases own
    · split
      · next node known => exact inherited.explains_walkPath (inherited.findLocal? has known)
      · split
        · next node known =>
          exact inherited.explains_walkPath
            (findEnclosing? inherited.toInherited (inherited.root has) known)
        · match outer with
          | some outer => exact explains_search inherited defined outer (inherited.outer has outer rfl)
          | none => rfl

theorem explains_findRelative (inherited : InheritedInScopes N S) {path : List String}
    {scope : Scope} (has : S scope) : Explains N (Reference.findRelative defaultKey path scope) := by
  induction path generalizing scope with
  | nil => rfl
  | cons first rest ih => exact inherited.explains_search (fun _ has => ih has) scope has

/-- References lead to nodes with the property. -/
theorem explains_find (inherited : InheritedInScopes N S) {r : Reference} {scope : Scope}
    (has : S scope) : Explains N (r.find scope defaultKey) := by
  rw [Reference.find]
  split
  · exact inherited.explains_findTagged has
  · split
    · exact inherited.explains_walkPath (inherited.root (inherited.rootScope has))
    · exact inherited.explains_findRelative has

end InheritedInScopes

/-! ### Bound arguments -/

/-- The node of an argument has a property. -/
def ArgumentValue.Has (N : Node → Prop) : ArgumentValue → Prop
  | .positional node | .named _ node | .indexed _ node => N node

namespace Slots

theorem mem_of_find? {slots : Slots} {position : Nat} {node : Node}
    (found : slots.find? position = some node) : (position, node) ∈ slots := by
  induction slots with
  | nil => cases found
  | cons slot rest ih =>
    obtain ⟨i, argument⟩ := slot
    rw [find?] at found
    split at found
    · next same =>
      cases found
      subst same
      exact List.mem_cons_self
    · exact List.mem_cons_of_mem _ (ih found)

theorem mem_insert {slots : Slots} {position : Nat} {node : Node} {slot : Nat × Node}
    (member : slot ∈ slots.insert position node) : slot = (position, node) ∨ slot ∈ slots := by
  induction slots with
  | nil => exact .inl (List.mem_singleton.mp member)
  | cons first rest ih =>
    obtain ⟨i, old⟩ := first
    rw [insert] at member
    split at member
    · exact List.mem_cons.mp member
    · split at member
      · rcases List.mem_cons.mp member with rfl | later
        · exact .inl rfl
        · exact .inr (List.mem_cons_of_mem _ later)
      · rcases List.mem_cons.mp member with rfl | later
        · exact .inr List.mem_cons_self
        · exact (ih later).imp_right (List.mem_cons_of_mem _)

theorem insert_has {slots : Slots} {position : Nat} {node : Node} (bound : ∀ slot ∈ slots, N slot.2)
    (argument : N node) : ∀ slot ∈ slots.insert position node, N slot.2 := by
  intro slot member
  rcases mem_insert member with rfl | old
  · exact argument
  · exact bound slot old

end Slots

/-- What is collected in lists has the property of what is collected. -/
structure Gathered (N : Node → Prop) : Prop where
  plain : ∀ {items source}, (∀ item ∈ items, N item) → N (.plain (.list items) source)
  append : ∀ {items more annotations source}, N ⟨.list items, annotations, source⟩ →
    (∀ item ∈ more, N item) → N ⟨.list (items ++ more), annotations, source⟩

namespace ArgumentBinding

/-- All arguments of a binding in progress have a property. -/
def Has (N : Node → Prop) (b : ArgumentBinding) : Prop :=
  (∀ slot ∈ b.slots, N slot.2) ∧ ∀ node ∈ b.collected, N node

theorem Has.add {l : LambdaExpr} {b b' : ArgumentBinding} {argument : ArgumentValue} (has : b.Has N)
    (more : argument.Has N) (added : b.add l argument = .ok b') : b'.Has N := by
  cases argument with
  | positional node =>
    rw [ArgumentBinding.add] at added
    split at added
    · cases added
      refine ⟨has.1, fun other member => ?_⟩
      rcases List.mem_append.mp member with known | new
      · exact has.2 other known
      · obtain rfl := List.mem_singleton.mp new
        exact more
    · split at added
      · cases added
        exact ⟨Slots.insert_has has.1 more, has.2⟩
      · cases added
  | named name node =>
    rw [ArgumentBinding.add] at added
    split at added
    · cases added
      exact ⟨Slots.insert_has has.1 more, has.2⟩
    · cases added
  | indexed index node =>
    rw [ArgumentBinding.add] at added
    split at added
    · cases added
    · cases added
      exact ⟨Slots.insert_has has.1 more, has.2⟩

theorem Has.finish {l : LambdaExpr} {b : ArgumentBinding} (gathered : Gathered N) (has : b.Has N) :
    ∀ slot ∈ b.finish l, N slot.2 := by
  rw [ArgumentBinding.finish]
  split
  · split
    · next items annotations source found =>
      exact Slots.insert_has has.1
        (gathered.append (has.1 _ (Slots.mem_of_find? found)) has.2)
    · exact Slots.insert_has has.1 (gathered.plain has.2)
  · exact has.1

end ArgumentBinding

/-- Binding arguments with the property gives slots with the property. -/
theorem Lambda.bindArguments_has {l : Lambda} {args : List ArgumentValue} {slots : Slots}
    (gathered : Gathered N) (known : ∀ slot ∈ l.bound, N slot.2)
    (arguments : ∀ argument ∈ args, argument.Has N) (bound : l.bindArguments args = .ok slots) :
    ∀ slot ∈ slots, N slot.2 := by
  have inProgress : ∀ (args : List ArgumentValue) (b b' : ArgumentBinding), b.Has N →
      (∀ argument ∈ args, argument.Has N) →
      args.foldlM (ArgumentBinding.add l.expr) b = .ok b' → b'.Has N := by
    intro args
    induction args with
    | nil =>
      rintro b b' has - done
      cases done
      exact has
    | cons argument rest ih =>
      intro b b' has arguments done
      rw [List.foldlM_cons] at done
      cases added : b.add l.expr argument with
      | error failure =>
        rw [added] at done
        cases done
      | ok next =>
        rw [added] at done
        exact ih next b' (has.add (arguments argument List.mem_cons_self) added)
          (fun argument member => arguments argument (List.mem_cons_of_mem _ member)) done
  rw [Lambda.bindArguments] at bound
  cases done : args.foldlM (ArgumentBinding.add l.expr) ⟨l.bound, [], 0, l.bound.length⟩ with
  | error failure =>
    rw [done] at bound
    cases bound
  | ok b =>
    rw [done] at bound
    cases bound
    refine (inProgress args _ b ⟨known, ?_⟩ arguments done).finish gathered
    exact fun node member => absurd member List.not_mem_nil

/-- A curried lambda differs in its bound arguments alone. -/
theorem Lambda.eq_of_curry {l l' : Lambda} {args : List ArgumentValue}
    (curried : l.curry args = .ok l') :
    ∃ slots, l.bindArguments args = .ok slots ∧ l' = ⟨l.expr, l.scope, slots⟩ := by
  rw [Lambda.curry] at curried
  cases bound : l.bindArguments args with
  | error failure =>
    rw [bound] at curried
    cases curried
  | ok slots =>
    rw [bound] at curried
    cases curried
    exact ⟨slots, rfl, rfl⟩

end Cascade
