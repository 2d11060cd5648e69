import Cascade.Address
import Cascade.Evaluation.Outcome
import Cascade.Number.Range

/-!
# Operators

The operators on resolved values. Ints are checked against their 64 bits; mixed numbers are computed
as floats; addresses are shifted by ints and subtracted from each other. Equality looks through the
text form of ints and truth values and compares numbers as floats.

## Main definitions

* `arithmetic`, `concatenate`, `compare`, `Value.order?`, `Value.looseEq`.
-/

namespace Cascade

/-- The outcome for operands that an operator does not take. -/
def operandFailure (op : String) (lhs rhs : Value) : Failure :=
  .operands op lhs.typeName rhs.typeName

/-- An int, if it has 64 bits. -/
def checkedInt (n : Int) : Except Failure Int64 :=
  if FitsInt n then .ok (Int64.ofInt n) else .error .overflow

/-- An operator on ints; division truncates. -/
def integerOp (op : ArithmeticOp) (a b : Int64) : Except Failure Int64 :=
  let x := a.toInt
  let y := b.toInt
  match op with
  | .add => checkedInt (x + y)
  | .sub => checkedInt (x - y)
  | .mul => checkedInt (x * y)
  | .div => if y = 0 then .error .divisionByZero else checkedInt (x.tdiv y)
  | .mod =>
    if y = 0 then .error .divisionByZero
    -- The remainder goes with its quotient, which must have 64 bits as well.
    else do
      let _ ← checkedInt (x.tdiv y)
      checkedInt (x.tmod y)

/-- An operator on floats. -/
def floatOp (op : ArithmeticOp) (a b : Float) : Except Failure Float :=
  match op with
  | .add => .ok (a + b)
  | .sub => .ok (a - b)
  | .mul => .ok (a * b)
  | .div => if b == 0 then .error .divisionByZero else .ok (a / b)
  | .mod => if b == 0 then .error .divisionByZero else .ok (Binary64.remainder a b)

/-- An address moved by an int. -/
def shiftAddress (op : ArithmeticOp) (text : String) (address : Address) (delta : Int64) :
    Except Failure Value :=
  let shifted (delta : Int) : Except Failure Value :=
    match address.shift? delta with
    | some moved => .ok (.string moved.render)
    | none => .error (.custom ("address " ++ text ++ " out of range"))
  match op with
  | .add => shifted delta.toInt
  | .sub => shifted (-delta.toInt)
  | _ => .error (.operands op.symbol "string" "int")

/-- An address is shifted to an address, in its text form. -/
theorem eq_render_of_shiftAddress {op : ArithmeticOp} {text : String} {address : Address}
    {delta : Int64} {value : Value} (shifts : shiftAddress op text address delta = .ok value) :
    ∃ moved : Address, value = .string moved.render := by
  unfold shiftAddress at shifts
  cases op with
  | add | sub =>
    dsimp only at shifts
    split at shifts
    · next moved _ =>
      cases shifts
      exact ⟨moved, rfl⟩
    · cases shifts
  | _ => cases shifts

/-- `+ - * / %`. -/
def arithmetic (op : ArithmeticOp) (lhs rhs : Value) : Except Failure Value :=
  match lhs, rhs with
  | .int a, .int b => Value.int <$> integerOp op a b
  | .string text, .int delta =>
    match Address.parse? text with
    | some address => shiftAddress op text address delta
    | none => .error (operandFailure op.symbol lhs rhs)
  | .string a, .string b =>
    match op, Address.parse? a, Address.parse? b with
    | .sub, some a, some b =>
      match a.distance? b with
      | some distance => .ok (.int (Int64.ofInt distance))
      | none => .error (operandFailure op.symbol lhs rhs)
    | _, _, _ => .error (operandFailure op.symbol lhs rhs)
  | _, _ =>
    match lhs.asFloat?, rhs.asFloat? with
    | some a, some b => Value.float <$> floatOp op a b
    | _, _ => .error (operandFailure op.symbol lhs rhs)

/-- Arithmetic gives numbers and addresses. -/
theorem eq_of_arithmetic {op : ArithmeticOp} {lhs rhs value : Value}
    (computed : arithmetic op lhs rhs = .ok value) :
    (∃ n, value = .int n) ∨ (∃ x, value = .float x) ∨ ∃ a : Address, value = .string a.render := by
  have made {α : Type} {make : α → Value} {x : Except Failure α} (done : make <$> x = .ok value) :
      ∃ a, value = make a := by
    cases x with
    | error failure => cases done
    | ok a =>
      cases done
      exact ⟨a, rfl⟩
  unfold arithmetic at computed
  split at computed
  · exact .inl (made computed)
  · split at computed
    · exact .inr (.inr ((eq_render_of_shiftAddress computed).imp fun _ moved => moved))
    · cases computed
  · split at computed
    · split at computed
      · cases computed
        exact .inl ⟨_, rfl⟩
      · cases computed
    · cases computed
  · split at computed
    · exact .inr (.inl (made computed))
    · cases computed

/-- Two values side by side. Lists take any value but nil as a further item; scalars join as
texts. -/
def concatenate (lhs rhs : Value) (source : String) : Except Failure Value :=
  match lhs, rhs with
  | .list a, .list b => .ok (.list (a ++ b))
  | .list _, .nil => .error (.concatenation "list" "nil")
  | .list a, item => .ok (.list (a ++ [.plain item source]))
  | .map a, .map b => .ok (.map (Fields.override a b))
  | _, _ =>
    match lhs.asText?, rhs.asText? with
    | some a, some b => .ok (.string (a ++ b))
    | _, _ => .error (.concatenation lhs.typeName rhs.typeName)

namespace Value

/-- Text compared with the text form of an int or truth value, blanks around it ignored. -/
def textEq (s : String) (other : Value) : Bool :=
  other.asText? == some (Blank.trim s)

mutual

/-- Equality of values. Numbers are compared as floats, texts with ints and truth values by their
text form, containers item by item; everything else must be the same. -/
def looseEq : Value → Value → Bool
  | .int a, .int b => Binary64.ofInt a.toInt == Binary64.ofInt b.toInt
  | .int a, .float b => Binary64.ofInt a.toInt == b
  | .float a, .int b => a == Binary64.ofInt b.toInt
  | .float a, .float b => a == b
  | .string s, .int n => textEq s (.int n)
  | .string s, .bool b => textEq s (.bool b)
  | .int n, .string s => textEq s (.int n)
  | .bool b, .string s => textEq s (.bool b)
  | .list a, .list b => a.length == b.length && looseEqItems a b
  | .map a, .map b => a.length == b.length && looseEqFields a b
  | a, b => a.same b

/-- Equality of nodes, which looks at values alone. -/
def looseEqNode : Node → Node → Bool
  | ⟨a, _, _⟩, ⟨b, _, _⟩ => looseEq a b

/-- Equality of items up to the end of the shorter list. -/
def looseEqItems : List Node → List Node → Bool
  | a :: as, b :: bs => looseEqNode a b && looseEqItems as bs
  | _, _ => true

/-- Every field has an equal one of its name. -/
def looseEqFields : List (String × Node) → List (String × Node) → Bool
  | [], _ => true
  | (key, a) :: as, others =>
    (match Fields.find? others key with
      | some b => looseEqNode a b
      | none => false) && looseEqFields as others

end

/-- The order of two numbers or two strings. A NaN has none. -/
def order? : Value → Value → Option Ordering
  | .int a, .int b => some (compareOfLessAndEq a.toInt b.toInt)
  | .string a, .string b => some (compareOfLessAndEq a b)
  | a, b =>
    match a.asFloat?, b.asFloat? with
    | some x, some y =>
      if x < y then some .lt else if x == y then some .eq else if y < x then some .gt else none
    | _, _ => none

end Value

/-- `== != < <= > >=`. -/
def compare (op : ComparisonOp) (lhs rhs : Value) : Except Failure Bool :=
  match op with
  | .eq => .ok (lhs.looseEq rhs)
  | .ne => .ok (!lhs.looseEq rhs)
  | _ =>
    match lhs.order? rhs with
    | none => .error (operandFailure op.symbol lhs rhs)
    | some ordering =>
      .ok (match op with
        | .lt => ordering == .lt
        | .le => ordering != .gt
        | .gt => ordering == .gt
        | _ => ordering != .lt)

end Cascade
