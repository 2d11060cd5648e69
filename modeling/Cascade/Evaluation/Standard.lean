import Cascade.Evaluation.Engine
import Cascade.Evaluation.Operators
import Cascade.Text.Case
import Cascade.Text.Split

/-!
# Standard functions

The functions every engine starts with. Each takes evaluated positional arguments and checks their
number first.

## Main definitions

* `Standard.functions`: the functions by name.
-/

namespace Cascade.Standard

open Eval

/-- A value with nothing to note. -/
def answer (value : Value) : Eval Resolved := pure (.ofValue value)

/-- The number of arguments lies between two bounds. -/
def checkArity (name : String) (args : List Value) (least : Nat) (most : Option Nat) : Eval Unit :=
  let given := args.length
  if given < least then fail (.missingArgument (name ++ " argument " ++ toString (given + 1)))
  else
    match most with
    | some most => if most < given then fail (.tooManyArguments name most given) else pure ()
    | none => pure ()

/-- The argument at a position, whose presence is checked before. -/
def arg (args : List Value) (i : Nat) : Value := args[i]?.getD .nil

/-- The text form of a value. -/
def text (value : Value) : Eval String :=
  match value.asText? with
  | some s => pure s
  | none => mismatch "string" value

/-- The fields of a map. -/
def fieldsOf (value : Value) : Eval (Fields Node) :=
  match value.asMap? with
  | some fields => pure fields
  | none => mismatch "map" value

/-- A list of values. -/
def listOf (values : List Value) (binding : Binding) : Value :=
  .list (values.map fun value => .plain value binding.source)

/-- An int. -/
def ofNat (n : Nat) : Value := .int (Int64.ofInt n)

/-- `length(text | list | map)`. -/
def length : Function := fun _ args _ => do
  checkArity "length" args 1 (some 1)
  match arg args 0 with
  | .string s => answer (ofNat s.length)
  | .list items => answer (ofNat items.length)
  | .map fields => answer (ofNat fields.length)
  | other => mismatch "string, list or map" other

/-- `keys(map)`. -/
def keys : Function := fun _ args binding => do
  checkArity "keys" args 1 (some 1)
  let fields ← fieldsOf (arg args 0)
  answer (listOf ((Fields.keys fields).map .string) binding)

/-- `values(map)`. -/
def values : Function := fun _ args _ => do
  checkArity "values" args 1 (some 1)
  let fields ← fieldsOf (arg args 0)
  answer (.list (Fields.values fields))

/-- The texts that an argument of `join` contributes. -/
def parts : Value → Eval (List String)
  | .list items => items.mapM fun item => text item.value
  | other => return [← text other]

/-- `join(separator, items...)`; lists are flattened one level. -/
def join : Function := fun _ args _ => do
  checkArity "join" args 1 none
  let separator ← text (arg args 0)
  let pieces ← (args.drop 1).mapM parts
  answer (.string (separator.intercalate pieces.flatten))

/-- `split(separator, text)`; without a separator into characters. -/
def split : Function := fun _ args binding => do
  checkArity "split" args 2 (some 2)
  let separator ← text (arg args 0)
  let subject ← text (arg args 1)
  let pieces :=
    if separator = "" then subject.toList.map String.singleton else Text.splitOn separator subject
  answer (listOf (pieces.map .string) binding)

/-- `trim(text)`, or `trim(text, characters)`. -/
def trim : Function := fun _ args _ => do
  checkArity "trim" args 1 (some 2)
  let subject ← text (arg args 0)
  match args[1]? with
  | some characters =>
    let set := (← text characters).toList
    answer (.string (String.ofList (Blank.strip set.contains subject.toList)))
  | none => answer (.string (Blank.trim subject))

/-- `upper(text)`. -/
def upper : Function := fun _ args _ => do
  checkArity "upper" args 1 (some 1)
  answer (.string (LetterCase.upper (← text (arg args 0))))

/-- `lower(text)`. -/
def lower : Function := fun _ args _ => do
  checkArity "lower" args 1 (some 1)
  answer (.string (LetterCase.lower (← text (arg args 0))))

/-- `contains(list, item)`, `contains(map, key)`, `contains(text, part)`. -/
def contains : Function := fun _ args _ => do
  checkArity "contains" args 2 (some 2)
  let item := arg args 1
  match arg args 0 with
  | .list items => answer (.bool (items.any fun node => node.value.looseEq item))
  | .map fields => answer (.bool (Fields.contains fields (← text item)))
  | .string s => answer (.bool (Text.containsText s (← text item)))
  | other => mismatch "list, map or string" other

/-- Fills the verbs of a pattern. `%d` takes ints only. -/
def fillPattern : List Char → List Value → Eval (List Char)
  | [], _ => pure []
  | ['%'], _ => pure ['%']
  | '%' :: '%' :: rest, args => do return '%' :: (← fillPattern rest args)
  | '%' :: verb :: rest, args =>
    if verb == 's' || verb == 'd' || verb == 'v' then
      match args with
      | [] => fail (.custom ("format: missing argument for %" ++ String.singleton verb))
      | value :: args =>
        if verb == 'd' && value.asInt?.isNone then mismatch "int" value
        else do return value.display.toList ++ (← fillPattern rest args)
    else fail (.custom ("format: unknown verb %" ++ String.singleton verb))
  | c :: rest, args => do return c :: (← fillPattern rest args)

/-- `format(pattern, args...)`. -/
def format : Function := fun _ args _ => do
  checkArity "format" args 1 none
  let pattern ← text (arg args 0)
  answer (.string (String.ofList (← fillPattern pattern.toList (args.drop 1))))

/-- The numbers given to `min` or `max`: one list, or the arguments themselves. -/
def numbers (name : String) (args : List Value) : Eval (List Value) := do
  let items := match args with
    | [.list items] => items.map Node.value
    | _ => args
  if items.isEmpty then fail (.custom (name ++ " needs at least one value"))
  else
    match items.find? fun item => item.asFloat?.isNone with
    | some item => mismatch "number" item
    | none => return items

/-- The first value that no later one is better than. Values are compared as floats. -/
def extreme (better : Float → Float → Bool) (items : List Value) : Option (Float × Value) :=
  items.foldl
    (fun best item =>
      let number := item.asFloat?.getD 0
      match best with
      | none => some (number, item)
      | some (current, value) =>
        if better number current then some (number, item) else some (current, value))
    none

/-- `min(numbers...)` or `min(list)`. -/
def min : Function := fun _ args _ => do
  let items ← numbers "min" args
  answer (((extreme (fun a b => a < b) items).map Prod.snd).getD .nil)

/-- `max(numbers...)` or `max(list)`. -/
def max : Function := fun _ args _ => do
  let items ← numbers "max" args
  answer (((extreme (fun a b => b < a) items).map Prod.snd).getD .nil)

/-- `error(parts...)` fails with the joined texts of its arguments. -/
def error : Function := fun _ args _ =>
  fail (.custom (" ".intercalate (args.map fun value => value.asText?.getD value.display)))

/-- `type(value)`. -/
def typeOf : Function := fun _ args _ => do
  checkArity "type" args 1 (some 1)
  answer (.string (arg args 0).typeName)

/-- A lambda argument. -/
def lambdaOf : Value → Eval Lambda
  | .lambda l => pure l
  | other => mismatch "lambda" other

/-- The elements of a collection, each under its index or field name. The directive key of a map is
no element. -/
def elements : Value → Eval (List (Value × Node))
  | .list items => pure (items.mapIdx fun index item => (ofNat index, item))
  | .map fields =>
    pure ((fields.filter fun field => field.1 ≠ directiveKey).map fun field =>
      (.string field.1, field.2))
  | other => mismatch "list or map" other

/-- The arguments for one element: its key comes first if the lambda takes it. -/
def elementArguments (l : Lambda) (key : Value) (element : Node) (binding : Binding) :
    List ArgumentValue :=
  if l.openParameters ≥ 2 then
    [.positional (.plain key binding.source), .positional element]
  else [.positional element]

/-- `map(collection, lambda)`: the results, absent ones left out. -/
def map : Function := fun deeper args binding => do
  checkArity "map" args 2 (some 2)
  let l ← lambdaOf (arg args 1)
  let results ← (← elements (arg args 0)).filterMapM fun (key, element) => do
    let resolved ← deeper.invoke l (elementArguments l key element binding) binding
    return if resolved.info.undefined then none else some (Node.plain resolved.value binding.source)
  answer (.list results)

/-- `select(collection, lambda)`: the elements that the lambda accepts. -/
def select : Function := fun deeper args binding => do
  checkArity "select" args 2 (some 2)
  let l ← lambdaOf (arg args 1)
  let accepts (key : Value) (element : Node) : Eval Bool := do
    let resolved ← deeper.invoke l (elementArguments l key element binding) binding
    return resolved.value.isTruthy
  match arg args 0 with
  | .map fields =>
    let selected ← fields.filterM fun (key, element) =>
      if key = directiveKey then pure false else accepts (.string key) element
    answer (.map selected)
  | other =>
    let selected ← (← elements other).filterM fun (key, element) => accepts key element
    answer (.list (selected.map Prod.snd))

/-- `sum(collection)`, `sum(collection, initial)` or `sum(collection, initial, lambda)`. -/
def sum : Function := fun deeper args binding => do
  checkArity "sum" args 1 (some 3)
  match args[2]? with
  | none =>
    let total ← (← elements (arg args 0)).foldlM
      (fun total (_, item) => ofFailing (arithmetic .add total item.value)) (args[1]?.getD (.int 0))
    answer total
  | some step =>
    let l ← lambdaOf step
    let total ← (← elements (arg args 0)).foldlM
      (fun (total : Node) (_, item) => do
        let resolved ← deeper.invoke l [.positional total, .positional item] binding
        return .plain resolved.value binding.source)
      (Node.plain (arg args 1) binding.source)
    answer total.value

/-- `uniq(list)`: the first of equal items. -/
def uniq : Function := fun _ args _ => do
  checkArity "uniq" args 1 (some 1)
  match arg args 0 with
  | .list items =>
    answer (.list (items.foldl
      (fun kept item =>
        if kept.any fun seen => seen.value.looseEq item.value then kept else kept ++ [item])
      []))
  | other => mismatch "list" other

/-- The functions by name. -/
def functions : Fields Function := [
  ("contains", contains),
  ("error", error),
  ("format", format),
  ("join", join),
  ("keys", keys),
  ("length", length),
  ("lower", lower),
  ("map", map),
  ("max", max),
  ("min", min),
  ("select", select),
  ("split", split),
  ("sum", sum),
  ("trim", trim),
  ("type", typeOf),
  ("uniq", uniq),
  ("upper", upper),
  ("values", values)]

end Cascade.Standard
