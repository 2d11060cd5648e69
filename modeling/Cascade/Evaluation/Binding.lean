import Cascade.Node.Path

/-!
# Bindings

A binding says where an expression stands: the scope in which names are looked up, the path of the
node in the result, and the path under which stubs are asked for values. Going down to a child,
calling a lambda or redirecting the stubs gives a new binding.

## Main definitions

* `Binding` with `child`, `entry`, `directive`, `redirected`, `deeper`.
* `Binding.stubValue?`, `Binding.overrideValue?`, `Binding.stateValue?`: what other documents have
  for the node.
-/

namespace Cascade

/-- The place of an expression. -/
structure Binding where
  scope : Scope
  /-- The path of the node in the result. -/
  path : List String
  /-- The path under which stub values are looked up. -/
  stubPath : List String
  /-- The key fields of the lists along the stub path, by position. -/
  stubKeys : List (Option String)
  /-- How many calls and nested documents surround the place. -/
  depth : Nat

namespace Binding

/-- The root of a document. -/
def atRoot (scope : Scope) (depth : Nat) : Binding := ⟨scope, [], [], [], depth⟩

/-- The child below a segment. -/
def child (b : Binding) (segment : String) : Binding :=
  { b with
    scope := { b.scope with anchor := b.scope.anchor ++ [segment] }
    path := b.path ++ [segment]
    stubPath := b.stubPath ++ [segment]
    stubKeys := b.stubKeys ++ [none] }

/-- The entry of a list whose entries are identified by a field, in stub lists too. -/
def entry (b : Binding) (segment key : String) : Binding :=
  { b.child segment with stubKeys := b.stubKeys ++ [some key] }

/-- The merge directive of the container: names are searched in the container's own fields, stubs
are asked for the container. -/
def directive (b : Binding) : Binding :=
  { b with
    scope := { b.scope with anchor := b.scope.anchor ++ [directiveKey] }
    path := b.path ++ [directiveKey] }

/-- The same place with another path for stubs. -/
def redirected (b : Binding) (stubPath : List String) : Binding :=
  { b with stubPath, stubKeys := stubPath.map fun _ => none }

/-- The same place in another scope, one call deeper. -/
def deeper (b : Binding) (scope : Scope) : Binding :=
  { b with scope, depth := b.depth + 1 }

/-- The snapshot of the document. -/
def document (b : Binding) : Document := b.scope.document

/-- The name given to values that an evaluation makes. -/
def source (b : Binding) : String := b.document.root.source

/-- The length of the common start of two paths. -/
def sharedLength : List String → List String → Nat
  | a :: as, b :: bs => if a = b then sharedLength as bs + 1 else 0
  | _, _ => 0

/-- The value of the first stub that has one at a path. Where the path agrees with the stub path of
the place, the key fields of the place apply. -/
def stubValue? (b : Binding) (path : List String) (defaultKey : String) : Option Node :=
  let keys := b.stubKeys.take (sharedLength path b.stubPath)
  b.document.stubs.findSome? fun stub => stub.lookupKeyed? defaultKey path keys

/-- The stub value that overrides the node: the first one that is no default. -/
def overrideValue? (b : Binding) (defaultKey : String) : Option Node :=
  (b.document.stubs.filterMap fun stub => stub.lookupKeyed? defaultKey b.stubPath b.stubKeys).find?
    fun node => !node.annotations.default

/-- The value of the state document for the node. -/
def stateValue? (b : Binding) (defaultKey : String) : Option Node :=
  b.document.state.bind fun state => state.lookup? b.path defaultKey

end Binding

end Cascade
