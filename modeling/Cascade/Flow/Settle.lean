import Cascade.Flow.Pass

/-!
# Flowing to a fixpoint

Passes over a document are repeated until one of them changes nothing. If stubs override the
document, their values are put into it before the first pass.

## Main definitions

* `Setting`: what all passes over one document share.
* `pass`: one pass over a snapshot.
* `settle`: the tree that a pass leaves unchanged, none if the passes do not suffice.
-/

namespace Cascade

mutual

/-- How deep the containers of a tree are nested. -/
def Node.height : Node → Nat
  | ⟨value, _, _⟩ => Value.height value

/-- How deep the containers of a value are nested. -/
def Value.height : Value → Nat
  | .list items => itemsHeight items + 1
  | .map fields => fieldsHeight fields + 1
  | _ => 0

/-- The greatest height of list items. -/
def itemsHeight : List Node → Nat
  | [] => 0
  | item :: rest => max item.height (itemsHeight rest)

/-- The greatest height of fields. -/
def fieldsHeight : List (String × Node) → Nat
  | [] => 0
  | (_, child) :: rest => max child.height (fieldsHeight rest)

end

/-- What all passes over one document share. -/
structure Setting where
  id : DocumentId
  /-- Prepared stubs, highest precedence first. -/
  stubs : List Node := []
  state : Option Node := none
  /-- Layers of local names, innermost first. -/
  locals : List (List (String × Node)) := []
  outer : Option Scope := none
  /-- How many calls and nested documents surround the document. -/
  depth : Nat := 0
  /-- Stubs override the document. -/
  overridable : Bool := false

/-- The root of a snapshot. -/
def Setting.rootBinding (s : Setting) (root : Node) : Binding :=
  .atRoot ⟨⟨s.id, root, s.stubs, s.state⟩, s.locals, [], s.outer⟩ s.depth

section

variable (engine : Engine) (deeper : Deeper) (s : Setting)

/-- One pass over a document, which sees the document as it was before the pass. Nothing that is
written in the document or in its stubs is nested deeper than their heights; the rest of the bound
is for what controls and directives produce. -/
def pass (root : Node) : Run Node := do
  let flowed ← flowNode engine deeper (root.height + itemsHeight s.stubs + 1 + deeper.fuel) root
    (s.rootBinding root) s.overridable
  return flowed.getD (.plain .nil root.source)

/-- Passes until one of them changes nothing, a given number at most. -/
def settleWithin : (passes : Nat) → Node → Run (Option Node)
  | 0, _ => pure none
  | passes + 1, root => do
    let next ← pass engine deeper s root
    if next.same root then return some next else settleWithin passes next

/-- The document before the first pass. -/
def Setting.seeded (root : Node) : Node :=
  if s.overridable then seedOverrides engine.defaultKey root (s.rootBinding root) else root

/-- The settled document. -/
def settle (root : Node) : Run (Option Node) :=
  settleWithin engine deeper s engine.maxPasses (s.seeded engine root)

end

end Cascade
