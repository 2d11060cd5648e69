import Cascade.Evaluation.Engine

/-!
# Binding arguments

Arguments fill the parameter slots of a lambda. A positional argument takes the first free slot at
or after the one filled by the positional argument before it; named and indexed ones set their
slot, whether or not it is free. Where a last variadic parameter is reached, further positional
arguments are collected, and appended to the list that an earlier binding collected.

## Main definitions

* `Slots`: arguments by parameter position.
* `Lambda.bindArguments`: the slots after binding more arguments.
* `Lambda.curry`: a lambda that waits for the rest.
-/

namespace Cascade

/-- Arguments by parameter position, in increasing order. -/
abbrev Slots := List (Nat × Node)

namespace Slots

/-- The argument of a position. -/
def find? : Slots → Nat → Option Node
  | [], _ => none
  | (i, node) :: rest, position => if i = position then some node else find? rest position

/-- Sets the argument of a position. -/
def insert (position : Nat) (node : Node) : Slots → Slots
  | [] => [(position, node)]
  | (i, old) :: rest =>
    if position < i then (position, node) :: (i, old) :: rest
    else if position = i then (position, node) :: rest
    else (i, old) :: insert position node rest

/-- The first position from `next` on that is free or takes any number of arguments; the number of
parameters if there is none. -/
def nextFree (slots : Slots) (variadic : Option Nat) (count next : Nat) : Nat :=
  ((List.range' next (count - next)).find? fun i =>
    variadic == some i || (find? slots i).isNone).getD count

end Slots

/-- The state of a binding in progress. -/
structure ArgumentBinding where
  slots : Slots
  /-- Arguments for the variadic parameter. -/
  collected : List Node
  /-- Where the next positional argument starts to look for a slot. -/
  next : Nat
  /-- Arguments given so far, those bound earlier included. -/
  given : Nat

/-- The position of a variadic last parameter. -/
def LambdaExpr.variadicPosition? (l : LambdaExpr) : Option Nat :=
  match l.params.getLast? with
  | some last => if last.variadic then some (l.params.length - 1) else none
  | none => none

namespace ArgumentBinding

/-- Binds one more argument. -/
def add (l : LambdaExpr) (b : ArgumentBinding) : ArgumentValue → Except Failure ArgumentBinding
  | .positional node =>
    let count := l.params.length
    let variadic := l.variadicPosition?
    let next := b.slots.nextFree variadic count b.next
    let given := b.given + 1
    if variadic == some next then .ok { b with collected := b.collected ++ [node], next, given }
    else if next < count then
      .ok { b with slots := b.slots.insert next node, next := next + 1, given }
    else .error (.tooManyArguments "lambda" count given)
  | .named name node =>
    match l.params.findIdx? fun param => param.name == name with
    | some position => .ok { b with slots := b.slots.insert position node }
    | none => .error (.unknownParameter name)
  | .indexed index node =>
    if index = 0 ∨ index > l.params.length then .error (.unknownParameter (toString index))
    else .ok { b with slots := b.slots.insert (index - 1) node }

/-- The slots with the collected arguments in that of the variadic parameter. -/
def finish (l : LambdaExpr) (b : ArgumentBinding) : Slots :=
  match l.variadicPosition?, b.collected with
  | some position, first :: _ =>
    match b.slots.find? position with
    | some ⟨.list items, annotations, source⟩ =>
      b.slots.insert position ⟨.list (items ++ b.collected), annotations, source⟩
    | _ => b.slots.insert position (.plain (.list b.collected) first.source)
  | _, _ => b.slots

end ArgumentBinding

namespace Lambda

/-- The slots of a lambda after binding more arguments. -/
def bindArguments (l : Lambda) (args : List ArgumentValue) : Except Failure Slots := do
  let b ← args.foldlM (ArgumentBinding.add l.expr) ⟨l.bound, [], 0, l.bound.length⟩
  return b.finish l.expr

/-- The lambda with more arguments bound. -/
def curry (l : Lambda) (args : List ArgumentValue) : Except Failure Lambda := do
  return { l with bound := ← l.bindArguments args }

end Lambda

end Cascade
