/-!
# Ranges of machine integers

Ints have 64 bits and a sign; positions, counts and parts of numbers have 64 bits and none.

## Main definitions

* `FitsInt`, `FitsWord`.
-/

namespace Cascade

/-- The integer has a signed form of 64 bits. -/
abbrev FitsInt (n : Int) : Prop :=
  -0x8000000000000000 ≤ n ∧ n < 0x8000000000000000

/-- The number has an unsigned form of 64 bits. -/
abbrev FitsWord (n : Nat) : Prop :=
  n < 0x10000000000000000

end Cascade
