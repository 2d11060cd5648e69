import Cascade.Node.Json
import Cascade.Proofs.ExactPrinting

/-!
# Documents survive the trip through JSON

A value whose numbers are ints or finite floats is read as a document and written as the same value.
A document without lambdas and templates is written unless a float in it is not finite, and what is
written is read as a document of the same shape with the same values. Expressions come back as the
strings that embed them, and a pass reads such a string as the expression that it stands for. The
exception is that of printed expressions: `merge on ~` is written as `merge on nil`, where the
literal has become the key of the form.

## Main definitions

* `Json.IsFinite`, `Node.Contains`, `Node.IsBuiltOf`: values and documents that can be written.
* `Node.ComesBackAs`: what a document is after it was written and read.

## Main statements

* `Node.ofJson_toJson`: values and documents survive the trip.
-/

namespace Cascade

/-! ### Values and documents -/

/-- All floats of the value are finite. -/
inductive Json.IsFinite : Json → Prop
  | null : IsFinite .null
  | bool (b : Bool) : IsFinite (.bool b)
  | int (n : Int64) : IsFinite (.int n)
  | float {x : Float} (finite : Binary64.isFinite x = true) : IsFinite (.float x)
  | string (s : String) : IsFinite (.string s)
  | array {items : List Json} (each : ∀ item ∈ items, item.IsFinite) : IsFinite (.array items)
  | object {members : List (String × Json)} (each : ∀ member ∈ members, member.2.IsFinite) :
      IsFinite (.object members)

/-- The expression was read from a text, and its float literals are finite. -/
def Expr.IsRead (e : Expr) : Prop :=
  (∃ text, parse text = .ok e) ∧ e.Everywhere Expr.IsFinite

/-- The string embeds the expression, and it stands for the expression exactly if no literal in the
expression becomes the key of a merge form. -/
def Expr.EmbeddedAs (e : Expr) (text : String) : Prop :=
  text = e.embed ∧ (Embedded.classify text = .expression e ↔ e.Everywhere Expr.Apart)

namespace Node

/-- The value stands at the root of the tree, or in an entry of a list or a field of a map. -/
inductive Contains (value : Value) : Node → Prop
  | root (annotations : Annotations) (source : String) : Contains value ⟨value, annotations, source⟩
  | item {item : Node} {items : List Node} {annotations : Annotations} {source : String}
      (member : item ∈ items) (inside : Contains value item) :
      Contains value ⟨.list items, annotations, source⟩
  | field {field : String × Node} {fields : List (String × Node)} {annotations : Annotations}
      {source : String} (member : field ∈ fields) (inside : Contains value field.2) :
      Contains value ⟨.map fields, annotations, source⟩

/-- The tree consists of scalars, lists, maps and expressions of one kind, annotated or not. -/
inductive IsBuiltOf (P : Expr → Prop) : Node → Prop
  | nil (annotations : Annotations) (source : String) : IsBuiltOf P ⟨.nil, annotations, source⟩
  | bool (b : Bool) (annotations : Annotations) (source : String) :
      IsBuiltOf P ⟨.bool b, annotations, source⟩
  | int (n : Int64) (annotations : Annotations) (source : String) :
      IsBuiltOf P ⟨.int n, annotations, source⟩
  | float (x : Float) (annotations : Annotations) (source : String) :
      IsBuiltOf P ⟨.float x, annotations, source⟩
  | string (s : String) (annotations : Annotations) (source : String) :
      IsBuiltOf P ⟨.string s, annotations, source⟩
  | list {items : List Node} {annotations : Annotations} {source : String}
      (each : ∀ item ∈ items, IsBuiltOf P item) : IsBuiltOf P ⟨.list items, annotations, source⟩
  | map {fields : List (String × Node)} {annotations : Annotations} {source : String}
      (each : ∀ field ∈ fields, IsBuiltOf P field.2) :
      IsBuiltOf P ⟨.map fields, annotations, source⟩
  | expression {e : Expr} {annotations : Annotations} {source : String} (holds : P e) :
      IsBuiltOf P ⟨.expression e, annotations, source⟩

/-- The second tree has the shape and the values of the first one, without annotations and from one
source. In the place of an expression stands a string that it is related to. -/
inductive ComesBackAs (Stands : Expr → String → Prop) (source : String) : Node → Node → Prop
  | nil (annotations : Annotations) (source' : String) :
      ComesBackAs Stands source ⟨.nil, annotations, source'⟩ (plain .nil source)
  | bool (b : Bool) (annotations : Annotations) (source' : String) :
      ComesBackAs Stands source ⟨.bool b, annotations, source'⟩ (plain (.bool b) source)
  | int (n : Int64) (annotations : Annotations) (source' : String) :
      ComesBackAs Stands source ⟨.int n, annotations, source'⟩ (plain (.int n) source)
  | float (x : Float) (annotations : Annotations) (source' : String) :
      ComesBackAs Stands source ⟨.float x, annotations, source'⟩ (plain (.float x) source)
  | string (s : String) (annotations : Annotations) (source' : String) :
      ComesBackAs Stands source ⟨.string s, annotations, source'⟩ (plain (.string s) source)
  | list {items items' : List Node} {annotations : Annotations} {source' : String}
      (each : items.Forall₂ (ComesBackAs Stands source) items') :
      ComesBackAs Stands source ⟨.list items, annotations, source'⟩ (plain (.list items') source)
  | map {fields fields' : List (String × Node)} {annotations : Annotations} {source' : String}
      (keys : fields.map Prod.fst = fields'.map Prod.fst)
      (each : (fields.map Prod.snd).Forall₂ (ComesBackAs Stands source) (fields'.map Prod.snd)) :
      ComesBackAs Stands source ⟨.map fields, annotations, source'⟩ (plain (.map fields') source)
  | expression {e : Expr} {text : String} {annotations : Annotations} {source' : String}
      (stands : Stands e text) :
      ComesBackAs Stands source ⟨.expression e, annotations, source'⟩ (plain (.string text) source)

/-! ### Entries of lists and maps -/

theorem ofJsonItems_eq_map (source : String) (items : List Json) :
    ofJsonItems source items = items.map (ofJson source) := by
  induction items with
  | nil => rfl
  | cons item rest ih => rw [ofJsonItems, ih, List.map_cons]

theorem ofJsonMembers_eq_map (source : String) (members : List (String × Json)) :
    ofJsonMembers source members =
      members.map fun member => (member.1, ofJson source member.2) := by
  induction members with
  | nil => rfl
  | cons member rest ih => rw [ofJsonMembers, ih, List.map_cons]

/-- The members of a map are its keys with the values of its fields, which are written like the
items of a list. -/
theorem toJsonMembers_eq_zip (fields : List (String × Node)) :
    toJsonMembers fields =
      (fields.map Prod.fst).zip <$> toJsonItems (fields.map Prod.snd) := by
  induction fields with
  | nil => rfl
  | cons field rest ih =>
    rw [toJsonMembers, List.map_cons, List.map_cons, toJsonItems, ih]
    cases field.2.toJson with
    | error e => rfl
    | ok value => cases toJsonItems (rest.map Prod.snd) <;> rfl

section

variable {α β : Type} {x : Except NonFinite α}

theorem bind_eq_ok_iff {f : α → Except NonFinite β} {b : β} :
    (x >>= f) = .ok b ↔ ∃ a, x = .ok a ∧ f a = .ok b := by
  cases x <;> simp [bind, Except.bind]

theorem bind_eq_error_iff {f : α → Except NonFinite β} {e : NonFinite} :
    (x >>= f) = .error e ↔ x = .error e ∨ ∃ a, x = .ok a ∧ f a = .error e := by
  cases x <;> simp [bind, Except.bind]

theorem map_eq_ok_iff {f : α → β} {b : β} : f <$> x = .ok b ↔ ∃ a, x = .ok a ∧ f a = b := by
  cases x <;> simp [Functor.map, Except.map]

theorem map_eq_error_iff {f : α → β} {e : NonFinite} : f <$> x = .error e ↔ x = .error e := by
  cases x <;> simp [Functor.map, Except.map]

end

/-- The items of a list are written one by one. -/
theorem toJsonItems_eq_ok_iff {items : List Node} {values : List Json} :
    toJsonItems items = .ok values ↔
      items.Forall₂ (fun item value => item.toJson = .ok value) values := by
  induction items generalizing values with
  | nil =>
    rw [toJsonItems, List.forall₂_nil_left_iff]
    exact ⟨fun same => (Except.ok.inj same).symm, fun same => congrArg _ same.symm⟩
  | cons item rest ih =>
    simp only [toJsonItems, List.forall₂_cons_left_iff, bind_eq_ok_iff, ih]
    constructor
    · rintro ⟨value, first, others, later, written⟩
      exact ⟨value, others, first, later, (Except.ok.inj written).symm⟩
    · rintro ⟨value, others, first, later, rfl⟩
      exact ⟨value, first, others, later, rfl⟩

theorem toJson_of_mem {items : List Node} {values : List Json}
    (written : toJsonItems items = .ok values) {item : Node} (member : item ∈ items) :
    ∃ value, item.toJson = .ok value := by
  have each := toJsonItems_eq_ok_iff.mp written
  clear written
  induction each with
  | nil => cases member
  | cons here later ih =>
    rcases List.mem_cons.mp member with rfl | member
    · exact ⟨_, here⟩
    · exact ih member

theorem exists_of_toJsonItems_eq_error {items : List Node} {e : NonFinite}
    (failed : toJsonItems items = .error e) : ∃ item ∈ items, item.toJson = .error e := by
  induction items with
  | nil => cases failed
  | cons item rest ih =>
    rw [toJsonItems] at failed
    rcases bind_eq_error_iff.mp failed with first | ⟨value, -, failed⟩
    · exact ⟨item, List.mem_cons_self, first⟩
    · rcases bind_eq_error_iff.mp failed with later | ⟨others, -, impossible⟩
      · obtain ⟨item, member, here⟩ := ih later
        exact ⟨item, List.mem_cons_of_mem _ member, here⟩
      · cases impossible

/-- A list is written with the values of its items. -/
theorem toJson_list_eq_ok_iff {items : List Node} {annotations : Annotations} {source : String}
    {value : Json} : (Node.mk (.list items) annotations source).toJson = .ok value ↔
      ∃ values, toJsonItems items = .ok values ∧ Json.array values = value := by
  rw [toJson, map_eq_ok_iff]

/-- A map is written with its keys and the values of its fields. -/
theorem toJson_map_eq_ok_iff {fields : List (String × Node)} {annotations : Annotations}
    {source : String} {value : Json} :
    (Node.mk (.map fields) annotations source).toJson = .ok value ↔
      ∃ values, toJsonItems (fields.map Prod.snd) = .ok values ∧
        Json.object ((fields.map Prod.fst).zip values) = value := by
  simp only [toJson, toJsonMembers_eq_zip, map_eq_ok_iff, exists_exists_and_eq_and]

/-! ### From values to documents and back -/

/-- A value is written as it was read. -/
theorem toJson_ofJson {value : Json} (finite : value.IsFinite) (source : String) :
    (ofJson source value).toJson = .ok value := by
  induction finite with
  | null | bool | int | string => rfl
  | float finite => exact if_pos finite
  | @array items each ih =>
    refine toJson_list_eq_ok_iff.mpr ⟨items, ?_, rfl⟩
    rw [ofJsonItems_eq_map, toJsonItems_eq_ok_iff, List.forall₂_map_left_iff, List.forall₂_same]
    exact ih
  | @object members each ih =>
    refine toJson_map_eq_ok_iff.mpr ⟨members.map Prod.snd, ?_, congrArg Json.object ?_⟩
    · rw [ofJsonMembers_eq_map, List.map_map, toJsonItems_eq_ok_iff, List.forall₂_map_left_iff,
        List.forall₂_map_right_iff, List.forall₂_same]
      exact ih
    · rw [ofJsonMembers_eq_map, List.map_map]
      exact List.zip_map'.trans (List.map_id' _)

/-! ### Floats that prevent writing -/

section

variable {P : Expr → Prop} {node : Node}

/-- A document that is not written holds the float that is named, which is not finite. -/
theorem contains_of_toJson_eq_error {e : NonFinite} (built : node.IsBuiltOf P)
    (failed : node.toJson = .error e) :
    node.Contains (.float e.value) ∧ Binary64.isFinite e.value = false := by
  induction built with
  | nil | bool | int | string | expression => cases failed
  | float x annotations source =>
    rw [toJson] at failed
    split at failed
    · cases failed
    · next infinite =>
      cases failed
      exact ⟨.root _ _, Bool.eq_false_of_not_eq_true infinite⟩
  | list each ih =>
    rw [toJson, map_eq_error_iff] at failed
    obtain ⟨item, member, failed⟩ := exists_of_toJsonItems_eq_error failed
    obtain ⟨inside, infinite⟩ := ih item member failed
    exact ⟨.item member inside, infinite⟩
  | map each ih =>
    rw [toJson, map_eq_error_iff, toJsonMembers_eq_zip, map_eq_error_iff] at failed
    obtain ⟨child, member, failed⟩ := exists_of_toJsonItems_eq_error failed
    obtain ⟨field, among, rfl⟩ := List.mem_map.mp member
    obtain ⟨inside, infinite⟩ := ih field among failed
    exact ⟨.field among inside, infinite⟩

/-- All floats of a document that is written are finite. -/
theorem isFinite_of_contains {x : Float} {value : Json} (inside : node.Contains (.float x))
    (written : node.toJson = .ok value) : Binary64.isFinite x = true := by
  induction inside generalizing value with
  | root annotations source =>
    rw [toJson] at written
    split at written
    · next finite => exact finite
    · cases written
  | item member inside ih =>
    obtain ⟨values, written, -⟩ := toJson_list_eq_ok_iff.mp written
    obtain ⟨value, here⟩ := toJson_of_mem written member
    exact ih here
  | field member inside ih =>
    obtain ⟨values, written, -⟩ := toJson_map_eq_ok_iff.mp written
    obtain ⟨value, here⟩ := toJson_of_mem written (List.mem_map_of_mem member)
    exact ih here

end

/-! ### What comes back -/

section

variable {P : Expr → Prop} {Stands : Expr → String → Prop} {source : String}

theorem forall₂_comesBackAs {items : List Node} {values : List Json}
    (each : ∀ item ∈ items, ∀ value, item.toJson = .ok value →
      item.ComesBackAs Stands source (ofJson source value))
    (written : toJsonItems items = .ok values) :
    items.Forall₂ (ComesBackAs Stands source) (values.map (ofJson source)) := by
  rw [List.forall₂_map_right_iff]
  have both := (List.forall₂_and_left _ _).mpr ⟨each, toJsonItems_eq_ok_iff.mp written⟩
  exact both.imp fun item value ⟨back, here⟩ => back value here

/-- A document that is written comes back, and its expressions as the strings that embed them. -/
theorem comesBackAs_ofJson {node : Node} {value : Json} (built : node.IsBuiltOf P)
    (stands : ∀ e, P e → Stands e e.embed) (written : node.toJson = .ok value) :
    node.ComesBackAs Stands source (ofJson source value) := by
  induction built generalizing value with
  | nil annotations source' =>
    cases written
    exact .nil annotations source'
  | bool b annotations source' =>
    cases written
    exact .bool b annotations source'
  | int n annotations source' =>
    cases written
    exact .int n annotations source'
  | float x annotations source' =>
    rw [toJson] at written
    split at written
    · cases written
      exact .float x annotations source'
    · cases written
  | string s annotations source' =>
    cases written
    exact .string s annotations source'
  | list each ih =>
    obtain ⟨values, entries, rfl⟩ := toJson_list_eq_ok_iff.mp written
    rw [ofJson, ofJsonItems_eq_map]
    exact .list (forall₂_comesBackAs (fun item member _ => ih item member) entries)
  | @map fields annotations source' each ih =>
    obtain ⟨values, entries, rfl⟩ := toJson_map_eq_ok_iff.mp written
    have length := (toJsonItems_eq_ok_iff.mp entries).length_eq
    rw [List.length_map] at length
    rw [ofJson, ofJsonMembers_eq_map]
    -- Keys and values part again where they were put together.
    refine .map ?_ ?_
    · rw [List.map_map]
      exact (List.map_fst_zip (by rw [List.length_map, length])).symm
    · have children := forall₂_comesBackAs (fun child member _ written => by
        obtain ⟨field, among, rfl⟩ := List.mem_map.mp member
        exact ih field among written) entries
      rw [List.map_map, show Prod.snd ∘ (fun member : String × Json =>
        (member.1, ofJson source member.2)) = ofJson source ∘ Prod.snd from rfl, ← List.map_map,
        List.map_snd_zip (by rw [List.length_map, length])]
      exact children
  | expression holds =>
    cases written
    exact .expression (stands _ holds)

end

/-- Values whose floats are finite are read as documents that are written as the same values.
Documents without lambdas and templates are written unless they hold a float that is not finite, and
what is written is read as the same document, with the strings that embed its expressions. -/
theorem ofJson_toJson {value : Json} (finite : value.IsFinite) {node : Node}
    (built : node.IsBuiltOf Expr.IsRead) (source : String) :
    (ofJson source value).toJson = .ok value ∧
      ((∃ e, node.toJson = .error e) ↔
        ∃ x, node.Contains (.float x) ∧ Binary64.isFinite x = false) ∧
      ∀ written, node.toJson = .ok written →
        node.ComesBackAs Expr.EmbeddedAs source (ofJson source written) := by
  have stands : ∀ e : Expr, e.IsRead → e.EmbeddedAs e.embed :=
    fun e ⟨⟨text, parsed⟩, finite⟩ => ⟨rfl, Expr.classify_embed_iff parsed finite⟩
  refine ⟨toJson_ofJson finite source, ⟨?_, ?_⟩, fun written here =>
    comesBackAs_ofJson built stands here⟩
  · rintro ⟨e, failed⟩
    exact ⟨e.value, contains_of_toJson_eq_error built failed⟩
  · rintro ⟨x, inside, infinite⟩
    cases outcome : node.toJson with
    | error e => exact ⟨e, rfl⟩
    | ok value =>
      rw [isFinite_of_contains inside outcome] at infinite
      cases infinite

/-- The literal beside a reference, where it becomes no key. -/
def referenceBesideNil : Expr := .concatenation (.reference ⟨none, false, ["x"]⟩) .nil

/-- An annotated document with an expression in a list. -/
def annotatedDocument : Node :=
  ⟨.map [("a", plain (.list [plain (.int 1) "s",
      ⟨.expression referenceBesideNil, { merged := true }, "t"⟩]) "s"),
    ("b", plain (.float (Binary64.ofDecimal false 15 (-1))) "s")], { merged := true }, "s"⟩

/-- The value of the document. -/
def annotatedValue : Json :=
  .object [("a", .array [.int 1, .string "(( x nil ))"]),
    ("b", .float (Binary64.ofDecimal false 15 (-1)))]

theorem ofJson_toJson_annotated :
    annotatedValue.IsFinite ∧ annotatedDocument.IsBuiltOf Expr.IsRead ∧
      (ofJson "v" annotatedValue).toJson = .ok annotatedValue ∧
      annotatedDocument.toJson = .ok annotatedValue ∧
      annotatedDocument.ComesBackAs Expr.EmbeddedAs "v" (ofJson "v" annotatedValue) := by
  have decimal : Binary64.isFinite (Binary64.ofDecimal false 15 (-1)) = true := by decide +kernel
  have finite : annotatedValue.IsFinite := by
    refine .object (List.forall_mem_cons.mpr ⟨.array (List.forall_mem_cons.mpr ⟨.int 1, ?_⟩),
      List.forall_mem_singleton.mpr (.float decimal)⟩)
    exact List.forall_mem_singleton.mpr (.string _)
  have parsed : Expr.parse "x  ~" = .ok referenceBesideNil := by cbv
  have built : annotatedDocument.IsBuiltOf Expr.IsRead := by
    refine .map (List.forall_mem_cons.mpr ⟨.list (List.forall_mem_cons.mpr ⟨.int 1 _ _, ?_⟩),
      List.forall_mem_singleton.mpr (.float _ _ _)⟩)
    exact List.forall_mem_singleton.mpr (.expression ⟨⟨_, parsed⟩, trivial, trivial, trivial⟩)
  have embedded : referenceBesideNil.embed = "(( x nil ))" := by decide +kernel
  have written : annotatedDocument.toJson = .ok annotatedValue := by
    simp only [annotatedDocument, annotatedValue, plain, toJson, toJsonItems, toJsonMembers,
      embedded, decimal, if_true]
    rfl
  obtain ⟨again, -, back⟩ := ofJson_toJson finite built "v"
  exact ⟨finite, built, again, written, back _ written⟩

/-- The literal that was written as a tilde is embedded as a word, which becomes the key of the
merge form before it. -/
theorem toJson_onNil : Expr.parse "merge on ~" = .ok Expr.mergeBesideNil ∧
    (plain (.expression Expr.mergeBesideNil) "s").toJson = .ok (.string "(( merge on nil ))") ∧
      Embedded.classify "(( merge on nil ))" ≠ .expression Expr.mergeBesideNil := by
  have parsed : Expr.parse "merge on ~" = .ok Expr.mergeBesideNil := by cbv
  have embedded : Expr.mergeBesideNil.embed = "(( merge on nil ))" := by decide +kernel
  refine ⟨parsed, congrArg (Except.ok ∘ Json.string) embedded, fun again => ?_⟩
  rw [← embedded, Expr.classify_embed_iff parsed ⟨trivial, trivial, trivial⟩] at again
  cases again.1 rfl

end Node

end Cascade
