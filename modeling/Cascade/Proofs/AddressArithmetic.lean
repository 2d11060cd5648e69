import Cascade.Evaluation.Operators
import Cascade.Proofs.AddressTexts

/-!
# Arithmetic of addresses

A number added to an address and subtracted again leads back to the address, in its canonical text,
and the sum exists exactly if the address that many further on does. The distance from the address
to the sum is the number that was added, with one exception: distances have a magnitude of 63 bits,
so the least int can be added to an address but is never a distance.

## Main results

* `Address.shift?_eq_some_iff`, `Address.distance?_eq_some_iff`: what moving and measuring do.
* `arithmetic_of_address`: the laws for every address and every int.
-/

namespace Cascade

/-- The numbers of a family's addresses. -/
def AddressFamily.Has (family : AddressFamily) (number : Int) : Prop :=
  0 ≤ number ∧ number < family.size

namespace Address

/-- An address moved by `delta` is the one of its family with the sum as its number. -/
theorem shift?_eq_some_iff {a moved : Address} {delta : Int} :
    a.shift? delta = some moved ↔
      moved.family = a.family ∧ (moved.number : Int) = a.number + delta := by
  obtain ⟨family, number, fits⟩ := a
  obtain ⟨family', number', fits'⟩ := moved
  unfold shift? ofNumber?
  simp only
  constructor
  · intro moves
    split at moves
    · cases moves
    · split at moves
      · cases moves
        exact ⟨rfl, by omega⟩
      · cases moves
  · rintro ⟨rfl, sum⟩
    have number? : ((number : Int) + delta).toNat = number' := by omega
    rw [if_neg (by omega), dif_pos (by rw [number?]; exact fits')]
    simp only [number?]

/-- An address can be moved as far as its family reaches. -/
theorem exists_shift?_iff (a : Address) (delta : Int) :
    (∃ moved, a.shift? delta = some moved) ↔ a.family.Has (a.number + delta) := by
  constructor
  · rintro ⟨moved, moves⟩
    obtain ⟨family, number⟩ := shift?_eq_some_iff.mp moves
    have fits := moved.number_lt
    rw [family] at fits
    exact ⟨by omega, by omega⟩
  · rintro ⟨nonnegative, fits⟩
    have number : ((a.number : Int) + delta).toNat < a.family.size := by omega
    exact ⟨⟨a.family, _, number⟩, shift?_eq_some_iff.mpr ⟨rfl, Int.toNat_of_nonneg nonnegative⟩⟩

theorem distance?_eq_some_iff {a b : Address} {distance : Int} :
    a.distance? b = some distance ↔ a.family = b.family ∧
      (a.number : Int) - b.number = distance ∧ distance.natAbs < 0x8000000000000000 := by
  unfold distance?
  simp only
  constructor
  · intro measured
    split at measured
    · next family =>
      split at measured
      · next short =>
        cases measured
        exact ⟨family, rfl, short⟩
      · cases measured
    · cases measured
  · rintro ⟨family, rfl, short⟩
    rw [if_pos family, if_pos short]

end Address

open Address

/-! ### Operators -/

variable {x y : String} {a b : Address} {n : Int64} {v : Value}

theorem arithmetic_string_int (isAddress : parse? x = some a) (op : ArithmeticOp) (n : Int64) :
    arithmetic op (.string x) (.int n) = shiftAddress op x a n := by
  unfold arithmetic
  simp only [isAddress]

/-- How far an int moves an address that it is added to or subtracted from. -/
def movedBy (op : ArithmeticOp) (n : Int64) : Option Int :=
  match op with
  | .add => some n.toInt
  | .sub => some (-n.toInt)
  | _ => none

theorem arithmetic_eq_ok_iff (isAddress : parse? x = some a) (op : ArithmeticOp) :
    arithmetic op (.string x) (.int n) = .ok v ↔
      ∃ moved, movedBy op n >>= a.shift? = some moved ∧ v = .string moved.render := by
  rw [arithmetic_string_int isAddress]
  unfold shiftAddress movedBy
  cases op with
  | add =>
    simp only [Option.bind_eq_bind, Option.bind_some]
    cases a.shift? n.toInt <;> simp [eq_comm]
  | sub =>
    simp only [Option.bind_eq_bind, Option.bind_some]
    cases a.shift? (-n.toInt) <;> simp [eq_comm]
  | _ => simp

theorem arithmetic_sub_eq_ok_iff (isAddress : parse? x = some a) (isAddress' : parse? y = some b) :
    arithmetic .sub (.string x) (.string y) = .ok v ↔
      ∃ distance, a.distance? b = some distance ∧ v = .int (Int64.ofInt distance) := by
  unfold arithmetic
  simp only [isAddress, isAddress']
  cases measured : a.distance? b with
  | none => simp
  | some distance => simp [eq_comm]

/-! ### Exactness -/

/-- What adding an int to the address that a text names, or subtracting it, leads to. -/
structure MovesExactly (x : String) (a : Address) (n : Int64) : Prop where
  add_iff : (∃ y, arithmetic .add (.string x) (.int n) = .ok y) ↔
    a.family.Has (a.number + n.toInt)
  sub_iff : (∃ y, arithmetic .sub (.string x) (.int n) = .ok y) ↔
    a.family.Has (a.number - n.toInt)
  /-- The sum is the text of the address that lies `n` further on. -/
  sum : ∀ y, arithmetic .add (.string x) (.int n) = .ok y → ∃ moved : Address,
    moved.family = a.family ∧ (moved.number : Int) = a.number + n.toInt ∧
      y = .string moved.render
  /-- Subtracting the number again gives the canonical text of the address. -/
  back : ∀ y, arithmetic .add (.string x) (.int n) = .ok y →
    arithmetic .sub y (.int n) = .ok (.string a.render)
  /-- The distance of the sum from the address is the number, unless this is the least int. -/
  distance_iff : ∀ y, arithmetic .add (.string x) (.int n) = .ok y →
    (arithmetic .sub y (.string x) = .ok (.int n) ↔ n ≠ Int64.minValue)

theorem exists_arithmetic_iff (isAddress : parse? x = some a) {op : ArithmeticOp} {delta : Int}
    (moved : movedBy op n = some delta) :
    (∃ y, arithmetic op (.string x) (.int n) = .ok y) ↔ a.family.Has (a.number + delta) := by
  rw [← exists_shift?_iff]
  constructor
  · rintro ⟨y, sum⟩
    obtain ⟨b, moves, -⟩ := (arithmetic_eq_ok_iff isAddress op).mp sum
    rw [moved] at moves
    exact ⟨b, moves⟩
  · rintro ⟨b, moves⟩
    refine ⟨_, (arithmetic_eq_ok_iff isAddress op).mpr ⟨b, ?_, rfl⟩⟩
    rw [moved]
    exact moves

/-- The distance between addresses that lie `n` apart. -/
theorem distance_moved_iff (isAddress : parse? x = some a) (isAddress' : parse? y = some b)
    (family : b.family = a.family) (number : (b.number : Int) = a.number + n.toInt) :
    arithmetic .sub (.string y) (.string x) = .ok (.int n) ↔ n ≠ Int64.minValue := by
  have least : Int64.minValue.toInt = -0x8000000000000000 := by decide
  have lower := n.le_toInt
  have upper := n.toInt_lt
  rw [arithmetic_sub_eq_ok_iff isAddress' isAddress, Ne, ← Int64.toInt_inj, least]
  constructor
  · rintro ⟨distance, measured, -⟩
    obtain ⟨-, apart, short⟩ := distance?_eq_some_iff.mp measured
    omega
  · intro notLeast
    have short : n.toInt.natAbs < 0x8000000000000000 := by omega
    refine ⟨n.toInt, distance?_eq_some_iff.mpr ⟨family, by omega, short⟩, ?_⟩
    rw [Int64.ofInt_toInt]

/-- Arithmetic of addresses is exact over the whole range of the family and of ints, but for the
distance of the least int. -/
theorem arithmetic_of_address {x : String} {a : Address} (isAddress : parse? x = some a)
    (n : Int64) : MovesExactly x a n where
  add_iff := exists_arithmetic_iff isAddress rfl
  sub_iff := exists_arithmetic_iff isAddress rfl
  sum := by
    intro y sum
    obtain ⟨moved, moves, rfl⟩ := (arithmetic_eq_ok_iff isAddress .add).mp sum
    obtain ⟨family, number⟩ := shift?_eq_some_iff.mp moves
    exact ⟨moved, family, number, rfl⟩
  back := by
    intro y sum
    obtain ⟨moved, moves, rfl⟩ := (arithmetic_eq_ok_iff isAddress .add).mp sum
    obtain ⟨family, number⟩ := shift?_eq_some_iff.mp moves
    have returns : moved.shift? (-n.toInt) = some a :=
      shift?_eq_some_iff.mpr ⟨family.symm, by omega⟩
    exact (arithmetic_eq_ok_iff (parse?_render moved) .sub).mpr ⟨a, returns, rfl⟩
  distance_iff := by
    intro y sum
    obtain ⟨moved, moves, rfl⟩ := (arithmetic_eq_ok_iff isAddress .add).mp sum
    obtain ⟨family, number⟩ := shift?_eq_some_iff.mp moves
    exact distance_moved_iff isAddress (parse?_render moved) family number

/-- The IPv6 address with the number 2⁶³. -/
def farAddress : Address := ⟨.v6, 0x8000000000000000, by decide⟩

/-- The greatest int leads from this address to another one, and back. -/
theorem arithmetic_of_farAddress :
    parse? "::8000:0:0:0" = some farAddress ∧
      arithmetic .add (.string "::8000:0:0:0") (.int Int64.maxValue) =
        .ok (.string "::ffff:ffff:ffff:ffff") ∧
      arithmetic .sub (.string "::ffff:ffff:ffff:ffff") (.string "::8000:0:0:0") =
        .ok (.int Int64.maxValue) := by
  have text : "::8000:0:0:0" = farAddress.render := by decide +kernel
  have isAddress : parse? "::8000:0:0:0" = some farAddress :=
    (congrArg parse? text).trans (parse?_render farAddress)
  have sum : arithmetic .add (.string "::8000:0:0:0") (.int Int64.maxValue) =
      .ok (.string "::ffff:ffff:ffff:ffff") := rfl
  exact ⟨isAddress, sum,
    ((arithmetic_of_address isAddress Int64.maxValue).distance_iff _ sum).mpr (by decide)⟩

/-- The least int leads from the same address to the first one, which has no distance to it. -/
theorem arithmetic_of_least :
    arithmetic .add (.string "::8000:0:0:0") (.int Int64.minValue) = .ok (.string "::") ∧
      arithmetic .sub (.string "::") (.string "::8000:0:0:0") =
        .error (.operands "-" "string" "string") :=
  ⟨rfl, rfl⟩

end Cascade
