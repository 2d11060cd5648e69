import Cascade.Proofs.FloatSigns

/-!
# The order of binary64 numbers

The bits of a magnitude count up with the magnitude: a greater exponent, or the same exponent and a
greater significand, makes greater bits. So finite numbers are ordered as the integers that their
bits make under their sign, and both zeros are one such integer. Comparisons of floats become
comparisons of integers that way.

## Main statements

* `Binary64.unpack_signed`: what a packed finite number is.
* `Binary64.signed_lt_iff`, `Binary64.signed_beq_iff`: the comparisons.
-/

namespace Cascade.Binary64

open Float.Model Float.Model.UnpackedFloat

/-- The sign of a number. -/
def signBit (negative : Bool) : Sign := if negative then .negative else .positive

/-- The significand of the number with the given bits of its magnitude. -/
def significandOf (magnitude : Nat) : Nat :=
  if magnitude < 4503599627370496 then magnitude
  else 4503599627370496 + magnitude % 4503599627370496

/-- The exponent of the number with the given bits of its magnitude. -/
def exponentOf (magnitude : Nat) : Int :=
  if magnitude < 4503599627370496 then -1074
  else (magnitude / 4503599627370496 : Nat) - 1075

theorem significandOf_pos {magnitude : Nat} (positive : 0 < magnitude) :
    0 < significandOf magnitude := by
  unfold significandOf
  split <;> omega

/-- A finite number with its sign and the bits of its magnitude, taken apart. -/
def unpackedForm (negative : Bool) (magnitude : Nat) : UnpackedFloat :=
  if positive : 0 < magnitude then
    .finite (signBit negative) (significandOf magnitude) (exponentOf magnitude)
      (significandOf_pos positive)
  else .zero (signBit negative)

/-- A greater magnitude has the greater exponent, or the same one and the greater significand. -/
theorem magnitude_lt {m n : Nat} (less : m < n) :
    exponentOf m < exponentOf n ∨
      (exponentOf m = exponentOf n ∧ significandOf m < significandOf n) := by
  unfold exponentOf significandOf
  split <;> split <;> omega

theorem compare_magnitudes (m n : Nat) :
    (Ord.compare (exponentOf m) (exponentOf n)).then
      (Ord.compare (significandOf m) (significandOf n)) = Ord.compare m n := by
  rcases Nat.lt_trichotomy m n with less | same | greater
  · rw [Nat.compare_eq_lt.mpr less]
    rcases magnitude_lt less with lower | ⟨level, lower⟩
    · rw [Int.compare_eq_lt.mpr lower]
      rfl
    · rw [level, Int.compare_eq_eq.mpr rfl, Nat.compare_eq_lt.mpr lower]
      rfl
  · rw [same, Int.compare_eq_eq.mpr rfl, Nat.compare_eq_eq.mpr rfl, Nat.compare_eq_eq.mpr rfl]
    rfl
  · rw [Nat.compare_eq_gt.mpr greater]
    rcases magnitude_lt greater with lower | ⟨level, lower⟩
    · rw [Int.compare_eq_gt.mpr lower]
      rfl
    · rw [level, Int.compare_eq_eq.mpr rfl, Nat.compare_eq_gt.mpr lower]
      rfl

/-- The bits of a number as an integer: the magnitude under its sign. -/
def signedBits (negative : Bool) (magnitude : Nat) : Int :=
  if negative then -magnitude else magnitude

@[simp] theorem signedBits_zero (negative : Bool) : signedBits negative 0 = 0 := by
  cases negative <;> rfl

theorem compare_natCast (m n : Nat) : Ord.compare (m : Int) (n : Int) = Ord.compare m n := by
  rcases Nat.lt_trichotomy m n with less | same | greater
  · rw [Nat.compare_eq_lt.mpr less, Int.compare_eq_lt.mpr (by omega)]
  · rw [Nat.compare_eq_eq.mpr same, Int.compare_eq_eq.mpr (by omega)]
  · rw [Nat.compare_eq_gt.mpr greater, Int.compare_eq_gt.mpr (by omega)]

theorem compare_neg_natCast (m n : Nat) :
    Ord.compare (-(m : Int)) (-(n : Int)) = (Ord.compare m n).swap := by
  rcases Nat.lt_trichotomy m n with less | same | greater
  · rw [Nat.compare_eq_lt.mpr less, Int.compare_eq_gt.mpr (by omega)]
    rfl
  · rw [Nat.compare_eq_eq.mpr same, Int.compare_eq_eq.mpr (by omega)]
    rfl
  · rw [Nat.compare_eq_gt.mpr greater, Int.compare_eq_lt.mpr (by omega)]
    rfl

/-- Finite numbers are ordered as the integers that their bits make. -/
theorem compare_unpackedForm (s t : Bool) (m n : Nat) :
    (unpackedForm s m).compare (unpackedForm t n) =
      some (Ord.compare (signedBits s m) (signedBits t n)) := by
  unfold unpackedForm
  by_cases mPos : 0 < m
  · by_cases nPos : 0 < n
    · rw [dif_pos mPos, dif_pos nPos]
      cases s <;> cases t
      · show some _ = some (Ord.compare (m : Int) (n : Int))
        rw [compare_magnitudes, compare_natCast]
      · show some Ordering.gt = some (Ord.compare (m : Int) (-(n : Int)))
        rw [Int.compare_eq_gt.mpr (by omega)]
      · show some Ordering.lt = some (Ord.compare (-(m : Int)) (n : Int))
        rw [Int.compare_eq_lt.mpr (by omega)]
      · show some (Ordering.swap _) = some (Ord.compare (-(m : Int)) (-(n : Int)))
        rw [compare_magnitudes, compare_neg_natCast]
    · obtain rfl : n = 0 := by omega
      rw [dif_pos mPos, dif_neg nPos, signedBits_zero]
      cases s
      · show some Ordering.gt = some (Ord.compare (m : Int) 0)
        rw [Int.compare_eq_gt.mpr (by omega)]
      · show some Ordering.lt = some (Ord.compare (-(m : Int)) 0)
        rw [Int.compare_eq_lt.mpr (by omega)]
  · obtain rfl : m = 0 := by omega
    by_cases nPos : 0 < n
    · rw [dif_neg mPos, dif_pos nPos, signedBits_zero]
      cases t
      · show some Ordering.lt = some (Ord.compare 0 (n : Int))
        rw [Int.compare_eq_lt.mpr (by omega)]
      · show some Ordering.gt = some (Ord.compare 0 (-(n : Int)))
        rw [Int.compare_eq_gt.mpr (by omega)]
    · obtain rfl : n = 0 := by omega
      rw [dif_neg mPos, signedBits_zero, signedBits_zero]
      rfl

/-! ### Taking packed numbers apart -/

section

variable {negative : Bool} {magnitude : Nat} {b : BitVec Format.binary64.numBits}

theorem toNat_unpackExponent_of_finite (finite : magnitude < infinityBits)
    (value : b.toNat = magnitude + if negative then 9223372036854775808 else 0) :
    (unpackExponent b).toNat = magnitude / 4503599627370496 := by
  rw [infinityBits_eq] at finite
  rw [toNat_unpackExponent, value]
  split <;> omega

theorem unpackExponent_ne_of_finite (finite : magnitude < infinityBits)
    (value : b.toNat = magnitude + if negative then 9223372036854775808 else 0) :
    unpackExponent b ≠ -BitVec.ofNat Format.binary64.exponentBits 1 := by
  have exponent := toNat_unpackExponent_of_finite finite value
  intro ones
  rw [ones] at exponent
  have special : 2047 = magnitude / 4503599627370496 := exponent
  rw [infinityBits_eq] at finite
  omega

theorem sign_of_value (finite : magnitude < infinityBits)
    (value : b.toNat = magnitude + if negative then 9223372036854775808 else 0) :
    Sign.ofBitVec (unpackSign b) = signBit negative := by
  rw [infinityBits_eq] at finite
  have bit : (unpackSign b).toNat = if negative then 1 else 0 := by
    rw [toNat_unpackSign, value]
    cases negative <;> simp <;> omega
  unfold Sign.ofBitVec
  cases negative
  · rw [if_pos (BitVec.eq_of_toNat_eq bit)]
    rfl
  · rw [if_neg]
    · rfl
    · intro zero
      rw [zero] at bit
      cases bit

theorem unpack_eq (finite : magnitude < infinityBits)
    (value : b.toNat = magnitude + if negative then 9223372036854775808 else 0) :
    UnpackedFloat.unpack Format.binary64 b = unpackedForm negative magnitude := by
  have exponent := toNat_unpackExponent_of_finite finite value
  have mantissa : (unpackMantissa b).toNat = magnitude % 4503599627370496 := by
    rw [toNat_unpackMantissa, value]
    split <;> omega
  unfold UnpackedFloat.unpack unpackedForm
  simp only [sign_of_value finite value]
  rw [if_neg (unpackExponent_ne_of_finite finite value)]
  split
  · next zero =>
    rw [zero] at exponent
    have small : 0 = magnitude / 4503599627370496 := exponent
    split
    · next none =>
      rw [none] at mantissa
      have empty : 0 = magnitude % 4503599627370496 := mantissa
      rw [dif_neg (by omega)]
    · next some =>
      have positive : 0 < magnitude := by
        by_contra notPositive
        refine some (BitVec.eq_of_toNat_eq ?_)
        rw [mantissa]
        show _ = 0
        omega
      rw [dif_pos positive, UnpackedFloat.finite.injEq]
      refine ⟨rfl, ?_, ?_⟩
      · rw [mantissa]
        unfold significandOf
        split <;> omega
      · rw [zero]
        unfold exponentOf
        rw [if_pos (by omega)]
        rfl
  · next normal =>
    have large : magnitude / 4503599627370496 ≠ 0 := by
      intro small
      rw [small] at exponent
      exact normal (BitVec.eq_of_toNat_eq exponent)
    rw [dif_pos (by omega), UnpackedFloat.finite.injEq]
    refine ⟨rfl, ?_, ?_⟩
    · rw [BitVec.toNat_append, ← Nat.shiftLeft_add_eq_or_of_lt (BitVec.isLt _), mantissa]
      unfold significandOf
      rw [if_neg (by omega)]
      rfl
    · rw [exponent]
      unfold exponentOf
      rw [if_neg (by omega)]
      rfl

end

theorem unpack_signed {negative : Bool} {magnitude : Nat} (finite : magnitude < infinityBits) :
    (signed negative magnitude).toModel.unpack = unpackedForm negative magnitude := by
  have value : (UInt64.ofNat (magnitude + if negative then Nat.pow 2 63 else 0)).toBitVec.toNat =
      magnitude + if negative then 9223372036854775808 else 0 := by
    have bound := finite
    rw [infinityBits_eq] at bound
    rw [UInt64.toNat_toBitVec, UInt64.toNat_ofNat']
    exact Nat.mod_eq_of_lt (by cases negative <;> simp <;> omega)
  show UnpackedFloat.unpack Format.binary64 (UnpackedFloat.pack Format.binary64
    (UnpackedFloat.unpack Format.binary64
      (UInt64.ofNat (magnitude + if negative then Nat.pow 2 63 else 0)).toBitVec)) = _
  -- A float keeps the bits that it is made of, unless they are those of a NaN.
  rw [pack_unpack _ (by decide), if_neg, unpack_eq finite value]
  intro isNaN
  exact unpackExponent_ne_of_finite finite value (of_decide_eq_true isNaN).1

/-! ### Comparing packed numbers -/

section

variable {s t : Bool} {m n : Nat}

theorem signed_lt_iff (mFinite : m < infinityBits) (nFinite : n < infinityBits) :
    signed s m < signed t n ↔ signedBits s m < signedBits t n := by
  show decide (((signed s m).toModel.unpack.compare (signed t n).toModel.unpack ==
    some .lt) = true) = true ↔ _
  rw [unpack_signed mFinite, unpack_signed nFinite, compare_unpackedForm, decide_eq_true_iff,
    beq_iff_eq, Option.some_inj, Int.compare_eq_lt]

theorem signed_beq_iff (mFinite : m < infinityBits) (nFinite : n < infinityBits) :
    (signed s m == signed t n) = true ↔ signedBits s m = signedBits t n := by
  show ((signed s m).toModel.unpack.compare (signed t n).toModel.unpack == some .eq) = true ↔ _
  rw [unpack_signed mFinite, unpack_signed nFinite, compare_unpackedForm, beq_iff_eq,
    Option.some_inj, Int.compare_eq_eq]

end

end Cascade.Binary64
