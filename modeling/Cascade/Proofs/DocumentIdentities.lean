import Cascade.Proofs.FieldInsertion
import Cascade.Proofs.LambdaCalls
import Cascade.Proofs.ParserLaws
import Cascade.Proofs.SoundFlow

/-!
# The documents behind identities

Within a flow, documents come about in three ways: they are outermost, they are nested at a place of
another document, or they are stubs that are prepared for one. The identity of a document writes
this history down as one list of names, in which a mark opens each level and a stub is a level with
a name of its own. Both are names that fields may have. So two documents may have one identity, and
they have not if no nested document stands at a path with the mark in it, or at a stub's name alone.

The outer scope of a scope tells by which place its document was created, so the history of a
document can be read off the scopes in it. Whatever a flow evaluates keeps this: every scope that a
value remembers belongs to a document with a history. That is soundness of trees once more, for
scopes that may belong to such documents only.

## Main definitions

* `Origin`, `Origin.id`: the history of a document, and its identity.
* `Origin.IsPlain`: no path in the history reads as anything else.
* `Scope.BelongsTo`: the document of the scope has a history.
* `Node.IsTraced`: so have all documents of scopes that a tree remembers.

## Main statements

* `Origin.id_inj`, `Origin.exists_twin`: which histories are told apart.
* `Engine.settledTree_yields`, `Engine.prepared_yields`: flows keep trees traced.
* `Engine.documents_toldApart`: what that means for documents, calls and lambdas.
-/

namespace Cascade

/-! ### Histories -/

/-- How a document comes about. -/
inductive Origin where
  /-- It is outermost, the only one of a number. -/
  | outermost (number : Nat)
  /-- It is nested in a document, at a path. -/
  | nested (parent : Origin) (path : List String)
  /-- It is the stub of a number, prepared for a document. -/
  | stub (base : Origin) (number : Nat)
deriving DecidableEq

namespace Origin

/-- The name of a stub in the identities of documents. -/
def stubName (number : Nat) : String := "stub" ++ toString number

/-- The identity of a document. -/
def id : Origin → DocumentId
  | outermost number => ⟨number, []⟩
  | nested parent path => parent.id.nested path
  | stub base number => base.id.nested [stubName number]

/-- No path at which a document is nested has the mark between levels in it, or is a stub's name. -/
def IsPlain : Origin → Prop
  | outermost _ => True
  | nested parent path =>
    parent.IsPlain ∧ DocumentId.nestedMark ∉ path ∧ ∀ number, path ≠ [stubName number]
  | stub base _ => base.IsPlain

theorem stubName_injective : Function.Injective stubName := by
  intro number number' same
  have digits := congrArg String.toList same
  simp only [stubName, String.toList_append, Nat.toString_eq_repr, Nat.toList_repr,
    List.append_cancel_left_eq] at digits
  rw [← naturalOfDigits_toDigits number, digits, naturalOfDigits_toDigits]

end Origin

theorem eq_nil_of_cons_eq_append {α : Type} {mark : α} {between after after' : List α}
    (last : mark ∉ after) (same : mark :: after = between ++ mark :: after') :
    between = [] ∧ after = after' := by
  cases between with
  | nil => exact ⟨rfl, (List.cons_eq_cons.mp same).2⟩
  | cons first between =>
    rw [List.cons_append, List.cons_eq_cons] at same
    rw [same.2] at last
    exact absurd (List.mem_append_right between List.mem_cons_self) last

/-- A list is split by its last mark in one way. -/
theorem append_cons_inj_of_notMem {α : Type} {mark : α} {before before' after after' : List α}
    (last : mark ∉ after) (last' : mark ∉ after')
    (same : before ++ mark :: after = before' ++ mark :: after') :
    before = before' ∧ after = after' := by
  -- One of the two marks comes first; what lies between them would follow it with a further mark.
  rcases List.append_eq_append_iff.mp same with ⟨between, rfl, rest⟩ | ⟨between, rfl, rest⟩
  · obtain ⟨rfl, later⟩ := eq_nil_of_cons_eq_append last rest
    exact ⟨(List.append_nil before).symm, later⟩
  · obtain ⟨rfl, later⟩ := eq_nil_of_cons_eq_append last' rest
    exact ⟨List.append_nil before', later.symm⟩

/-- The way from a document to one that is created in it is the last level of the identity. -/
theorem DocumentId.nested_inj {id id' : DocumentId} {path path' : List String}
    (plain : nestedMark ∉ path) (plain' : nestedMark ∉ path')
    (same : id.nested path = id'.nested path') : id = id' ∧ path = path' := by
  obtain ⟨root, before⟩ := id
  obtain ⟨root', before'⟩ := id'
  obtain ⟨rfl, levels⟩ := DocumentId.mk.inj same
  obtain ⟨rfl, rfl⟩ := append_cons_inj_of_notMem plain plain' levels
  exact ⟨rfl, rfl⟩

theorem DocumentId.nested_ne_outermost {id : DocumentId} {path : List String} {number : Nat} :
    id.nested path ≠ ⟨number, []⟩ := by
  intro same
  have levels := congrArg DocumentId.path same
  exact absurd levels (List.append_ne_nil_of_right_ne_nil _ (List.cons_ne_nil _ _))

namespace Origin

variable {o o' : Origin}

theorem mark_notMem_stubName (number : Nat) :
    DocumentId.nestedMark ∉ [stubName number] := by
  rw [List.mem_singleton]
  intro same
  have letters := congrArg String.toList same
  rw [stubName, String.toList_append] at letters
  cases letters

/-- Documents with plain histories have one identity only if they are one document. -/
theorem id_inj (plain : o.IsPlain) (plain' : o'.IsPlain) (same : o.id = o'.id) : o = o' := by
  -- Plain paths and stubs' names have no mark in them, so the last level says how both came about.
  induction o generalizing o' with
  | outermost number =>
    cases o' with
    | outermost number' => exact congrArg outermost (DocumentId.mk.inj same).1
    | nested parent' path' => exact absurd same.symm DocumentId.nested_ne_outermost
    | stub base' number' => exact absurd same.symm DocumentId.nested_ne_outermost
  | nested parent path ih =>
    obtain ⟨plain, unmarked, noStub⟩ := plain
    cases o' with
    | outermost number' => exact absurd same DocumentId.nested_ne_outermost
    | nested parent' path' =>
      obtain ⟨plain', unmarked', -⟩ := plain'
      obtain ⟨above, rfl⟩ := DocumentId.nested_inj unmarked unmarked' same
      rw [ih plain plain' above]
    | stub base' number' =>
      obtain ⟨-, name⟩ := DocumentId.nested_inj unmarked (mark_notMem_stubName number') same
      exact absurd name (noStub number')
  | stub base number ih =>
    cases o' with
    | outermost number' => exact absurd same DocumentId.nested_ne_outermost
    | nested parent' path' =>
      obtain ⟨-, unmarked', noStub'⟩ := plain'
      obtain ⟨-, name⟩ := DocumentId.nested_inj (mark_notMem_stubName number) unmarked' same
      exact absurd name.symm (noStub' number)
    | stub base' number' =>
      obtain ⟨above, name⟩ :=
        DocumentId.nested_inj (mark_notMem_stubName number) (mark_notMem_stubName number') same
      have parents : base = base' := ih plain plain' above
      rw [parents, stubName_injective (List.singleton_inj.mp name)]

/-- A document whose history is not plain has the identity of another one. -/
theorem exists_twin (twofold : ¬o.IsPlain) : ∃ o', o' ≠ o ∧ o'.id = o.id := by
  induction o with
  | outermost number => exact absurd trivial twofold
  | stub base number ih =>
    obtain ⟨base', differs, same⟩ := ih twofold
    refine ⟨stub base' number, fun equal => differs (stub.inj equal).1, ?_⟩
    rw [id, id, same]
  | nested parent path ih =>
    by_cases plain : parent.IsPlain
    · by_cases marked : DocumentId.nestedMark ∈ path
      · -- The mark in the path opens a level as well as any other.
        obtain ⟨before, after, rfl⟩ := List.append_of_mem marked
        refine ⟨nested (nested parent before) after, fun equal => ?_, ?_⟩
        · have sizes := congrArg sizeOf (nested.inj equal).1
          simp only [nested.sizeOf_spec] at sizes
          omega
        · simp [id, DocumentId.nested]
      · obtain ⟨number, rfl⟩ : ∃ number, path = [stubName number] := by
          by_contra none
          exact twofold ⟨plain, marked, fun number name => none ⟨number, name⟩⟩
        exact ⟨stub parent number, fun equal => Origin.noConfusion equal, rfl⟩
    · obtain ⟨parent', differs, same⟩ := ih plain
      refine ⟨nested parent' path, fun equal => differs (nested.inj equal).1, ?_⟩
      rw [id, id, same]

end Origin

/-! ### Trees with fields of stubs -/

section

variable [Lineage] {node child value template : Node} {place : ChildPlace}

theorem Node.Sound.get? (sound : node.Sound) (known : node.get? place = some child) :
    child.Sound := by
  have inside := sound.value
  obtain ⟨contents, annotations, source⟩ := node
  cases contents with
  | map fields =>
    cases place with
    | entry position => cases known
    | field key => exact Value.sound_map.mp inside _ (Fields.mem_of_find? known)
  | list items =>
    cases place with
    | field key => cases known
    | entry position => exact Value.sound_list.mp inside _ (List.mem_of_getElem? known)
  | _ => cases known

theorem Node.Sound.set (sound : node.Sound) (new : child.Sound) : (node.set place child).Sound := by
  obtain ⟨shown, inside⟩ := Node.sound_iff.mp sound
  obtain ⟨contents, annotations, source⟩ := node
  cases contents with
  | map fields =>
    cases place with
    | entry position => exact sound
    | field key =>
      refine sound.withFields ⟨fields, rfl⟩ fun field member => ?_
      rcases Fields.mem_insert member with rfl | old
      · exact new
      · exact Value.sound_map.mp inside field old
  | list items =>
    cases place with
    | field key => exact sound
    | entry position =>
      refine Node.sound_iff.mpr ⟨shown, Value.sound_list.mpr fun item member => ?_⟩
      rcases List.mem_or_eq_of_mem_set member with old | rfl
      · exact Value.sound_list.mp inside item old
      · exact new
  | _ => exact sound

/-- Setting a sound field keeps a tree sound. -/
theorem Node.Sound.insertAt? {path : List String} {tree : Node} (sound : node.Sound)
    (new : value.Sound) (made : node.insertAt? path value = some tree) : tree.Sound := by
  induction path generalizing node tree with
  | nil => cases made
  | cons segment rest ih =>
    cases rest with
    | nil =>
      obtain ⟨-, rfl⟩ := Node.insertAt?_singleton_iff.mp made
      exact sound.set new
    | cons next rest =>
      obtain ⟨child, after, known, below, rfl⟩ := Node.insertAt?_cons_iff.mp made
      exact sound.set (ih (sound.get? known) below)

theorem Node.Sound.insertAbsent {defaultKey : String} {stub : Node} {path : List String}
    (sound : template.Sound) (given : stub.Sound) :
    (insertAbsent defaultKey template path stub).Sound := by
  induction stub using Node.treeInduction generalizing template path with
  | map fields annotations source ih =>
    rw [Cascade.insertAbsent]
    have fieldsSound := Value.sound_map.mp given.value
    clear given
    -- The template changes from field to field, and each field is looked up in what it has become.
    induction fields generalizing template with
    | nil =>
      rw [insertAbsentFields]
      exact sound
    | cons field rest others =>
      have first := fieldsSound field List.mem_cons_self
      rw [insertAbsentFields]
      refine others (fun field member => ih field (List.mem_cons_of_mem _ member)) ?_
        fun field member => fieldsSound field (List.mem_cons_of_mem _ member)
      split
      · exact ih field List.mem_cons_self sound first
      · split
        · cases inserted : template.insertAt? (path ++ [field.1]) field.2 with
          | none => exact sound
          | some result => exact sound.insertAt? first inserted
        · exact sound
  | list items annotations source ih =>
    rw [insertAbsent_of_not_map (by simp)]
    exact sound
  | leaf value annotations source notList notMap =>
    rw [insertAbsent_of_not_map notMap]
    exact sound

/-- The fields that sound stubs add keep a template sound. -/
theorem Node.Sound.injected {defaultKey : String} {stubs : List Node} (sound : template.Sound)
    (given : ∀ stub ∈ stubs, stub.Sound) : (injected defaultKey template stubs).Sound := by
  rw [Cascade.injected]
  exact List.foldlRecOn stubs _ sound fun tree known stub member =>
    known.insertAbsent (given stub member)

end

/-! ### Flows -/

theorem Run.newDocument_yields : Run.Yields newDocument fun id => ∃ number, id = ⟨number, []⟩ := by
  rintro world world' id yields
  cases yields
  exact ⟨world.documents, rfl⟩

section

variable [Lineage] {engine : Engine} {stubs : List Node} (registered : engine.Sound)
  (given : ∀ stub ∈ stubs, stub.Sound)

include registered given

/-- A sound template settles to a sound tree, if documents may be outermost. -/
theorem Engine.settledTree_yields (outermost : ∀ number, Lineage.admits ⟨number, []⟩ none)
    {template : Node} {state : Option Node} (sound : template.Sound)
    (before : ∀ tree ∈ state, tree.Sound) :
    (engine.settledTree template stubs state).Yields Node.Sound := by
  unfold settledTree
  refine (Flow.Yields.lift Run.newDocument_yields).bind ?_
  rintro _ ⟨number, rfl⟩
  have shared : Setting.Sound { id := ⟨number, []⟩, stubs, state, overridable := true } :=
    ⟨outermost number, given, before, by simp, by simp⟩
  exact settled_yields registered (level_sound registered _ _) shared (sound.injected given)

/-- Sound stubs are prepared to sound stubs, if outermost documents may have stubs. -/
theorem Engine.prepared_yields (outermost : ∀ base number : Nat,
      Lineage.admits (DocumentId.nested ⟨base, []⟩ ["stub" ++ toString number]) none) :
    (engine.prepared stubs).Yields fun prepared => ∀ stub ∈ prepared.stubs, stub.Sound := by
  unfold prepared
  refine (Flow.Yields.lift Run.newDocument_yields).bind ?_
  rintro _ ⟨base, rfl⟩
  exact prepareFrom_yields registered (level_sound registered _ _) (outermost base) (by simp) given

end

/-! ### Scopes and the documents they belong to -/

/-- A document of this history has this identity, and this scope is around it: that of the place at
which it, or the document that it is prepared for, was created. -/
inductive Origin.Owns : Origin → DocumentId → Option Scope → Prop
  | outermost (number : Nat) : Owns (.outermost number) ⟨number, []⟩ none
  | outermostStub (base number : Nat) :
      Owns (.stub (.outermost base) number) (DocumentId.nested ⟨base, []⟩ [stubName number]) none
  | nested {o : Origin} {scope : Scope} (path : List String)
      (around : Owns o scope.document.id scope.outer) :
      Owns (.nested o path) (scope.document.id.nested path) (some scope)
  | nestedStub {o : Origin} {scope : Scope} (path : List String) (number : Nat)
      (around : Owns o scope.document.id scope.outer) :
      Owns (.stub (.nested o path) number)
        ((scope.document.id.nested path).nested [stubName number]) (some scope)

theorem Origin.Owns.id_eq {o : Origin} {id : DocumentId} {outer : Option Scope}
    (owns : o.Owns id outer) : id = o.id := by
  induction owns with
  | outermost number => rfl
  | outermostStub base number => rfl
  | nested path around ih => rw [Origin.id, ih]
  | nestedStub path number around ih => rw [Origin.id, Origin.id, ih]

/-- The scopes in a tree belong to documents with a history. -/
@[reducible] def Origin.lineage : Lineage where
  admits id outer := ∃ o : Origin, o.Owns id outer
  nested _ path := fun ⟨o, owns⟩ => ⟨.nested o path, .nested path owns⟩
  stub _ path number := fun ⟨o, owns⟩ =>
    ⟨.stub (.nested o path) number, .nestedStub path number owns⟩

/-- The document of the scope has a history. -/
def Scope.BelongsTo (scope : Scope) (o : Origin) : Prop :=
  o.Owns scope.document.id scope.outer

/-- The tree is sound, and every scope that something in it remembers belongs to a document with a
history. -/
def Node.IsTraced (node : Node) : Prop := @Node.Sound Origin.lineage node

/-- A value in a traced tree. -/
def Value.IsTraced (value : Value) : Prop := @Value.Sound Origin.lineage value

/-- A lambda in a traced tree. -/
def Lambda.IsTraced (l : Lambda) : Prop := @Lambda.Sound Origin.lineage l

/-- The place is in a document with a history, and what names can mean there is traced. -/
def Binding.IsTraced (b : Binding) : Prop := @Binding.Sound Origin.lineage b

section

variable {l : Lambda} {caller : Binding} {o o' : Origin}

theorem Binding.IsTraced.exists_belongsTo (traced : caller.IsTraced) :
    ∃ o, caller.scope.BelongsTo o :=
  @Binding.Sound.admitted Origin.lineage caller traced

theorem Lambda.IsTraced.exists_belongsTo (traced : l.IsTraced) : ∃ o, l.scope.BelongsTo o := by
  let _ := Origin.lineage
  have place : l.scope.Sound := (Lambda.sound_iff.mp traced).1
  exact (Scope.sound_iff.mp place).1

/-- Scopes belong to one document if and only if their documents have one identity. -/
theorem Scope.BelongsTo.id_eq_iff {scope scope' : Scope} (own : scope.BelongsTo o)
    (own' : scope'.BelongsTo o') (plain : o.IsPlain) (plain' : o'.IsPlain) :
    scope.document.id = scope'.document.id ↔ o = o' := by
  rw [Origin.Owns.id_eq own, Origin.Owns.id_eq own']
  exact ⟨Origin.id_inj plain plain', congrArg Origin.id⟩

/-- A call stays in the document of the lambda: it sees the tree of its caller in this document, and
the tree that the lambda captured in any other. -/
theorem Lambda.callScope_of_belongsTo (own : l.scope.BelongsTo o)
    (place : caller.scope.BelongsTo o') (plain : o.IsPlain) (plain' : o'.IsPlain) :
    (l.callScope caller).BelongsTo o ∧
      (l.callScope caller).document = if o = o' then caller.document else l.scope.document := by
  have told : l.scope.document.id = caller.document.id ↔ o = o' :=
    own.id_eq_iff place plain plain'
  unfold callScope
  by_cases same : l.scope.document.id = caller.document.id
  · rw [if_pos same, if_pos (told.mp same)]
    refine ⟨?_, rfl⟩
    show o.Owns caller.document.id l.scope.outer
    rw [← same]
    exact own
  · rw [if_neg same, if_neg fun equal => same (told.mpr equal)]
    exact ⟨own, rfl⟩

theorem Lambda.id_eq_of_same {l l' : Lambda} (same : Lambda.same l l' = true) :
    l.scope.document.id = l'.scope.document.id := by
  obtain ⟨expr, ⟨⟨id, root, stubs, state⟩, locals, anchor, outer⟩, bound⟩ := l
  obtain ⟨expr', ⟨⟨id', root', stubs', state'⟩, locals', anchor', outer'⟩, bound'⟩ := l'
  simp only [Lambda.same, Scope.same, Document.sameId, Bool.and_eq_true, beq_iff_eq] at same
  exact same.1.2.1.1.1

/-- Documents that are nested at a place of a document, and stubs that are prepared for them, have
these histories. -/
theorem Scope.BelongsTo.below {b : Binding} (place : b.scope.BelongsTo o) {s : Setting}
    (around : s.outer = some b.scope) (root : Node) :
    (s.id = b.document.id.nested b.path →
      (s.rootBinding root).scope.BelongsTo (.nested o b.path)) ∧
    ∀ number, s.id = (b.document.id.nested b.path).nested [Origin.stubName number] →
      (s.rootBinding root).scope.BelongsTo (.stub (.nested o b.path) number) := by
  unfold BelongsTo
  constructor
  · intro named
    show Origin.Owns _ s.id s.outer
    rw [named, around]
    exact .nested b.path place
  · intro number named
    show Origin.Owns _ s.id s.outer
    rw [named, around]
    exact .nestedStub b.path number place

end

/-! ### What is told apart -/

/-- The functions and controls of the engine keep what they are given traced. -/
def Engine.IsTraced (engine : Engine) : Prop := @Engine.Sound Origin.lineage engine

theorem Engine.isTraced_of_standard {engine : Engine}
    (functions : engine.functions = Standard.functions)
    (controls : engine.controls = Control.standard) : engine.IsTraced :=
  @Engine.sound_of_standard Origin.lineage engine functions controls

/-- Everything in a flow belongs to documents with a history, and documents whose histories are
plain are told apart by their identities. So a call stays in the document of its lambda, and lambdas
of different documents differ. Every other history has a twin with the same identity. -/
theorem Engine.documents_toldApart {engine : Engine} (registered : engine.IsTraced) :
    -- Whatever a flow prepares, settles and evaluates is traced.
    (∀ (template : Node) (stubs : List Node) (state : Option Node), template.IsTraced →
      (∀ stub ∈ stubs, stub.IsTraced) → (∀ tree ∈ state, tree.IsTraced) →
      ((engine.prepared stubs).Yields fun prepared => ∀ stub ∈ prepared.stubs, stub.IsTraced) ∧
        (engine.settledTree template stubs state).Yields Node.IsTraced) ∧
    (∀ (fuel levels : Nat) (b : Binding), b.IsTraced → (∃ o, b.scope.BelongsTo o) ∧
      (∀ e, (evaluate engine (level engine fuel levels) e b).Yields fun r => r.value.IsTraced) ∧
      ∀ (steps : Nat) (node : Node) (overridable : Bool), node.IsTraced →
        Run.Yields (flowNode engine (level engine fuel levels) steps node b overridable)
          fun result => ∀ n ∈ result, n.IsTraced) ∧
    (∀ l : Lambda, l.IsTraced → ∃ o, l.scope.BelongsTo o) ∧
    -- Documents and stubs that are created at a place have the history that the place gives them.
    (∀ (b : Binding) (o : Origin) (s : Setting) (root : Node), b.scope.BelongsTo o →
      s.outer = some b.scope →
      (s.id = b.document.id.nested b.path →
        (s.rootBinding root).scope.BelongsTo (.nested o b.path)) ∧
      ∀ number, s.id = (b.document.id.nested b.path).nested [Origin.stubName number] →
        (s.rootBinding root).scope.BelongsTo (.stub (.nested o b.path) number)) ∧
    -- Plain histories are told apart: by identities, by calls and by the equality of lambdas.
    (∀ (scope scope' : Scope) (o o' : Origin), scope.BelongsTo o → scope'.BelongsTo o' →
      o.IsPlain → o'.IsPlain → (scope.document.id = scope'.document.id ↔ o = o')) ∧
    (∀ (l : Lambda) (caller : Binding) (o o' : Origin), l.scope.BelongsTo o →
      caller.scope.BelongsTo o' → o.IsPlain → o'.IsPlain →
      (l.callScope caller).BelongsTo o ∧
        (l.callScope caller).document = if o = o' then caller.document else l.scope.document) ∧
    (∀ (l l' : Lambda) (o o' : Origin), l.scope.BelongsTo o → l'.scope.BelongsTo o' →
      o.IsPlain → o'.IsPlain → Lambda.same l l' = true → o = o') ∧
    -- No other history is.
    ∀ o : Origin, ¬o.IsPlain → ∃ o', o' ≠ o ∧ o'.id = o.id := by
  let _ := Origin.lineage
  refine ⟨fun template stubs state traced given before => ⟨?_, ?_⟩,
    fun fuel levels b traced => ⟨traced.exists_belongsTo, fun e => ?_, ?_⟩,
    fun l traced => traced.exists_belongsTo,
    fun b o s root place around => place.below around root,
    fun scope scope' o o' own own' => own.id_eq_iff own',
    fun l caller o o' own place => Lambda.callScope_of_belongsTo own place,
    fun l l' o o' own own' plain plain' same => ?_,
    fun o => Origin.exists_twin⟩
  · exact Engine.prepared_yields registered given fun base number =>
      ⟨.stub (.outermost base) number, .outermostStub base number⟩
  · exact Engine.settledTree_yields registered given
      (fun number => ⟨.outermost number, .outermost number⟩) traced before
  · exact evaluate_yields registered.functions (level_sound registered fuel levels) e b traced
  · intro steps node overridable sound
    exact flowNode_yields registered (level_sound registered fuel levels) steps node b overridable
      sound traced
  · exact (own.id_eq_iff own' plain plain').mp (Lambda.id_eq_of_same same)

/-- A merge of two templates, `t` with a field that holds a third one and `s` with a lambda that
asks for a name of its document. The third template has another value of that name, and calls the
lambda. -/
def mergingDocument (field merged : String) : Node :=
  .ofJson "template" (.object [
    ("s", .object [("<<", .string "(( &template ))"), ("f", .string "(( |x|-> y ))"),
      ("y", .int 1)]),
    ("t", .object [("<<", .string "(( &template ))"), ("f", .null), (field, .string "(( *u ))")]),
    ("u", .object [("<<", .string "(( &template ))"), ("r", .string "(( f(1) ))"), ("y", .int 2)]),
    ("m", .string merged)])

/-- The lambda that a field of the merged document takes from `s`, once everything is settled. -/
def mergedLambda (template : Node) : Option (Node × Lambda) := do
  let (answer, _) ← (Engine.standard.settledTree template [] none).run {}
  let tree ← answer.toOption
  let field ← tree.lookup? ["m", "f"] "name"
  match field.value with
  | .lambda l => return (tree, l)
  | _ => none

theorem exists_of_mergedLambda {template : Node} {id : DocumentId}
    (known : (mergedLambda template).map (fun found => found.2.scope.document.id) = some id) :
    ∃ tree after l, (Engine.standard.settledTree template [] none).run {} = some (.ok tree, after) ∧
      (tree.lookup? ["m", "f"] "name").map Node.value = some (.lambda l) ∧
      l.scope.document.id = id := by
  obtain ⟨⟨tree, l⟩, found, rfl⟩ := Option.map_eq_some_iff.mp known
  obtain ⟨⟨answer, after⟩, ran, rest⟩ := Option.bind_eq_some_iff.mp found
  obtain ⟨settled, succeeds, rest⟩ := Option.bind_eq_some_iff.mp rest
  obtain ⟨⟨value, annotations, source⟩, held, read⟩ := Option.bind_eq_some_iff.mp rest
  cases answer with
  | error failure => cases succeeds
  | ok settled' =>
    cases succeeds
    cases value with
    | lambda l =>
      cases read
      exact ⟨tree, after, l, ran, by rw [held]; rfl, rfl⟩
    | _ => cases read

/-- The first stub of the document that is merged at `m`, in the outermost document of a number. -/
def mergedStub (number : Nat) : Origin := .stub (.nested (.outermost number) ["m"]) 1

theorem isPlain_mergedStub {number : Nat} : (mergedStub number).IsPlain := by
  refine ⟨trivial, by decide, fun stub same => ?_⟩
  have letters := congrArg String.toList (List.singleton_inj.mp same)
  rw [Origin.stubName, String.toList_append] at letters
  cases letters

/-- The lambda that the merge takes from `s` belongs to the stub made of it and to nothing else, and
it stays there when it is called at `m`. -/
theorem Engine.documents_toldApart_mergingDocument : Engine.standard.IsTraced ∧
    (mergingDocument "other" "(( merge(t, s) ))").IsTraced ∧
    ∃ tree after l, (Engine.standard.settledTree (mergingDocument "other" "(( merge(t, s) ))") []
        none).run {} = some (.ok tree, after) ∧ tree.IsTraced ∧
      (tree.lookup? ["m", "f"] "name").map Node.value = some (.lambda l) ∧
      (∃ o, l.scope.BelongsTo o) ∧ ∀ o : Origin, l.scope.BelongsTo o → o.IsPlain →
        o = mergedStub 0 ∧ (l.callScope (placeIn tree ["m"])).document = l.scope.document := by
  let _ := Origin.lineage
  have registered : Engine.standard.IsTraced := Engine.isTraced_of_standard rfl rfl
  have traced : (mergingDocument "other" "(( merge(t, s) ))").IsTraced := sound_ofJson _ _
  obtain ⟨trees, -, lambdas, created, identities, calls, -⟩ :=
    Engine.documents_toldApart registered
  obtain ⟨tree, after, l, ran, field, id⟩ := exists_of_mergedLambda
    (show (mergedLambda (mergingDocument "other" "(( merge(t, s) ))")).map
      (fun found => found.2.scope.document.id) = some (mergedStub 0).id by decide +kernel)
  have settled : tree.IsTraced :=
    (trees _ [] none traced (by simp) (by simp)).2 {} after _ ran tree rfl
  obtain ⟨node, found, value⟩ := Option.map_eq_some_iff.mp field
  have inside : Value.Sound node.value := (Node.Sound.lookup? settled found).value
  rw [value, Value.sound_lambda] at inside
  refine ⟨registered, traced, tree, after, l, ran, settled, field, lambdas l inside, ?_⟩
  intro o own plain
  have place : (placeIn tree ["m"]).scope.BelongsTo (.outermost 0) := .outermost 0
  -- The stub that is prepared for the document at `m` is there to compare with.
  have stub := (created (placeIn tree ["m"]) (.outermost 0)
    { id := (mergedStub 0).id, outer := some (placeIn tree ["m"]).scope } tree place rfl).2 1 rfl
  have here : o = mergedStub 0 :=
    (identities _ _ o (mergedStub 0) own stub plain isPlain_mergedStub).mp id
  have called := (calls l (placeIn tree ["m"]) o (.outermost 0) own place plain trivial).2
  rw [here, if_neg (by decide)] at called
  exact ⟨here, called⟩

/-- The int at `m` in the document of a cascade that succeeds. -/
def mergedNumber (template : Node) : Option Int64 := do
  let (answer, _) ← (Engine.standard.cascade template [] none).run {}
  let outcome ← answer.toOption
  let node ← outcome.document.field? "m"
  node.value.asInt?

theorem exists_of_mergedNumber {template : Node} {number : Int64}
    (known : mergedNumber template = some number) :
    ∃ outcome after, (Engine.standard.cascade template [] none).run {} = some (.ok outcome, after) ∧
      (outcome.document.field? "m").bind (·.value.asInt?) = some number := by
  obtain ⟨⟨answer, after⟩, ran, rest⟩ := Option.bind_eq_some_iff.mp known
  cases answer with
  | error failure => cases rest
  | ok outcome => exact ⟨outcome, after, ran, rest⟩

/-- The third template is flowed in a field of the merged document. If the field has the name of the
stub, the template has the identity of the stub, and the lambda sees it in the place of `s`. -/
theorem Engine.not_documents_toldApart :
    mergedStub 1 ≠ .nested (.nested (.outermost 1) ["m"]) ["stub1"] ∧
    (mergedStub 1).id = (Origin.nested (.nested (.outermost 1) ["m"]) ["stub1"]).id ∧
    (∃ outcome after, (Engine.standard.cascade
        (mergingDocument "stub1" "(( merge(t, s).stub1.r ))") [] none).run {} =
          some (.ok outcome, after) ∧
      (outcome.document.field? "m").bind (·.value.asInt?) = some 2) ∧
    ∃ outcome after, (Engine.standard.cascade
        (mergingDocument "other" "(( merge(t, s).other.r ))") [] none).run {} =
          some (.ok outcome, after) ∧
      (outcome.document.field? "m").bind (·.value.asInt?) = some 1 := by
  refine ⟨by decide, by decide, exists_of_mergedNumber ?_, exists_of_mergedNumber ?_⟩
  · decide +kernel
  · decide +kernel

end Cascade
