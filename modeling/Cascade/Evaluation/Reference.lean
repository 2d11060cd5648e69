import Cascade.Evaluation.Binding
import Cascade.Evaluation.Outcome
import Cascade.Number.Range

/-!
# References

A relative name is searched in the local names, then in the maps around the place, innermost
first, then in the scope of the document that this one is nested in. Absolute references and the
tag `doc` start at the root of the outermost document, other tags at the node that carries the
tag. The rest of the path is walked step by step, and no step leads through a node that is not
available yet.

## Main definitions

* `Reference.find`: the node of a reference.
* `nodeValue`: the value of a node, once it is complete.
* `Reference.resolve`, `isDefined`.
-/

namespace Cascade

/-- Pending if the node is an expression, read or unread, or carries an error. -/
def checkAvailable (name : String) (node : Node) : Except Unresolved Unit :=
  if node.annotations.hasError || node.annotations.failed then
    .error (.pending
      { Info.ofMessage ("'" ++ name ++ "' depends on an error") with failed := true })
  else
    let unresolved : Unresolved := .pendingWith ("'" ++ name ++ "' is unresolved")
    match node.value with
    | .expression _ => .error unresolved
    | .string text => if Embedded.isUnread text then .error unresolved else .ok ()
    | _ => .ok ()

/-- The value of a node. A container whose descendants are not complete is pending, unless it is
taken as it is. -/
def nodeValue (name : String) (node : Node) (asItIs : Bool) : Except Unresolved Resolved := do
  checkAvailable name node
  if !asItIs && !node.isResolved then
    .error (.pending
      { Info.ofMessage ("'" ++ name ++ "' is unresolved") with failed := node.hasError })
  else return .ofValue node.value

/-- Follows a path from a node that was reached through `seen`. -/
def walkPath (defaultKey : String) (node : Node) (seen : List String) :
    List String → Except Unresolved Node
  | [] => .ok node
  | segment :: rest => do
    checkAvailable (Path.render seen) node
    match node.step? segment defaultKey with
    | some next => walkPath defaultKey next (seen ++ [segment]) rest
    | none =>
      let names := (node.value.asMap?.map Fields.keys).getD []
      .error (.ofFailure (.notFound (Path.render (seen ++ [segment])) (suggestions segment names)))

mutual

/-- The first node of a tree that carries a tag, parents before children. -/
def Node.findTag? (tag : String) : Node → Option Node
  | node@⟨value, annotations, _⟩ =>
    if annotations.tag == some tag then some node else Value.findTag? tag value

/-- The first node below a value that carries a tag. -/
def Value.findTag? (tag : String) : Value → Option Node
  | .list items => findTagItems? tag items
  | .map fields => findTagFields? tag fields
  | _ => none

/-- The first node of a list of trees that carries a tag. -/
def findTagItems? (tag : String) : List Node → Option Node
  | [] => none
  | node :: rest => (node.findTag? tag).or (findTagItems? tag rest)

/-- The first node of the fields of a map that carries a tag. -/
def findTagFields? (tag : String) : List (String × Node) → Option Node
  | [] => none
  | (_, node) :: rest => (node.findTag? tag).or (findTagFields? tag rest)

end

/-- The node of a document, or of a stub, that carries a tag. -/
def Document.findTag? (d : Document) (tag : String) : Option Node :=
  findTagItems? tag (d.root :: d.stubs)

/-- The number behind `doc.`, which stands for the document itself or one of its stubs. -/
def documentNumber? (tag : String) : Option Nat :=
  match (documentTag ++ ".").toList.isPrefixOf tag.toList,
      tag.toList.drop (documentTag.length + 1) with
  | true, c :: rest =>
    let digits := c :: rest
    let number := naturalOfDigits digits
    if digits.all Char.isDigit && FitsWord number then some number else none
  | _, _ => none

namespace Reference

/-- The node of a tagged reference. -/
def findTagged (defaultKey tag : String) (path : List String) (scope : Scope) :
    Except Unresolved Node :=
  let document := scope.rootScope.document
  if tag = documentTag then walkPath defaultKey document.root [] path
  else
    match documentNumber? tag with
    | some number =>
      match (document.root :: document.stubs)[number]? with
      | some root => walkPath defaultKey root [] path
      | none => .error (.ofFailure (.custom ("no document '" ++ tag ++ "'")))
    | none =>
      match document.findTag? tag with
      | some node => walkPath defaultKey node [tag ++ "::"] path
      | none => .error (.ofFailure (.custom ("tag '" ++ tag ++ "' not found")))

/-- The node of a name in the maps around a place, innermost first. -/
def findEnclosing? (defaultKey : String) (root : Node) (anchor : List String) (name : String) :
    Option Node :=
  (List.range anchor.length).reverse.findSome? fun depth =>
    (root.lookup? (anchor.take depth) defaultKey).bind (·.field? name)

/-- The names that a relative reference could have meant. -/
def visibleNames (defaultKey : String) (scope : Scope) : List String :=
  scope.locals.flatMap Fields.keys ++
    (List.range scope.anchor.length).flatMap fun depth =>
      (((scope.document.root.lookup? (scope.anchor.take depth) defaultKey).bind
        (·.value.asMap?)).map Fields.keys).getD []

/-- Searches a name outwards from a scope and walks the rest of the path from there. `definition`
continues in the scope of a lambda: below the local name `_` its own names are meant. -/
def search (defaultKey first : String) (rest : List String)
    (definition : Scope → Except Unresolved Node) : Scope → Except Unresolved Node
  | scope@⟨document, locals, anchor, outer⟩ =>
    match if first = "_" && !rest.isEmpty then Scope.findLocal? locals "_" else none with
    | some ⟨.lambda lambda, _, _⟩ => definition lambda.scope
    | _ =>
      match Scope.findLocal? locals first with
      | some node => walkPath defaultKey node [first] rest
      | none =>
        match findEnclosing? defaultKey document.root anchor first with
        | some node => walkPath defaultKey node [first] rest
        | none =>
          match outer with
          | some outer => search defaultKey first rest definition outer
          | none =>
            let similar := suggestions first (visibleNames defaultKey scope)
            .error (.ofFailure (.notFound first similar))

/-- The node of a relative path. -/
def findRelative (defaultKey : String) : List String → Scope → Except Unresolved Node
  | [], _ => .error (.ofFailure (.custom "empty reference"))
  | first :: rest, scope => search defaultKey first rest (findRelative defaultKey rest) scope

/-- The node of a reference. -/
def find (r : Reference) (scope : Scope) (defaultKey : String) : Except Unresolved Node :=
  match r.tag with
  | some tag => findTagged defaultKey tag r.path scope
  | none =>
    if r.absolute then walkPath defaultKey scope.rootScope.document.root [] r.path
    else findRelative defaultKey r.path scope

/-- The value of a reference. -/
def resolve (r : Reference) (scope : Scope) (defaultKey : String) (asItIs : Bool) :
    Except Unresolved Resolved := do
  nodeValue r.render (← r.find scope defaultKey) asItIs

end Reference

/-- The name has a node in the scope. -/
def isDefined (name : String) (scope : Scope) (defaultKey : String) : Bool :=
  (Reference.find (.relative [name]) scope defaultKey).isOk

end Cascade
