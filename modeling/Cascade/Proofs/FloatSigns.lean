import Mathlib
import Cascade.Number.Binary64

/-!
# Signs of binary64 numbers

The number that is rounded from a decimal has the sign of the decimal.

## Main statements

* `Binary64.isNegative_signed`: the sign bit is kept by the packed form.
* `Binary64.isNegative_ofDecimal`.
-/

namespace Cascade.Binary64

open Float.Model Float.Model.UnpackedFloat

/-- The sign bit of a packed form is the sign it was packed with. -/
theorem msb_packComponents (sign : Sign) (exponent : BitVec Format.binary64.exponentBits)
    (mantissa : BitVec Format.binary64.mantissaBitsWithoutImplicit) :
    (packComponents Format.binary64 sign exponent mantissa).msb = (sign.toBitVec).msb := by
  unfold packComponents
  rw [BitVec.msb_append, BitVec.msb_append]
  rw [if_neg (by decide), if_neg (by decide)]

/-- The sign of a number that is not the canonical NaN. -/
def signOf : UnpackedFloat → Option Sign
  | .infinity sign => some sign
  | .notANumber => none
  | .zero sign => some sign
  | .finite sign _ _ _ => some sign

theorem msb_pack {f : UnpackedFloat} {sign : Sign} (signed : signOf f = some sign) :
    (pack Format.binary64 f).msb = (sign.toBitVec).msb := by
  cases f with
  | infinity s =>
    cases signed
    exact msb_packComponents _ _ _
  | notANumber => cases signed
  | zero s =>
    cases signed
    exact msb_packComponents _ _ _
  | finite s m e positive =>
    cases signed
    unfold UnpackedFloat.pack
    simp only
    split
    · exact msb_packComponents _ _ _
    · split <;> exact msb_packComponents _ _ _

theorem isNegative_eq_msb (b : UInt64) : isNegative (Float.ofBits b) =
    (pack Format.binary64 (unpack Format.binary64 b.toBitVec)).msb := by
  rw [BitVec.msb_eq_decide]
  rfl

/-- Bits that do not encode NaN keep their sign. -/
theorem signOf_unpack {b : BitVec Format.binary64.numBits}
    (number : (unpackExponent b).toNat = 2047 → (unpackMantissa b).toNat = 0) :
    signOf (UnpackedFloat.unpack Format.binary64 b) = some (Sign.ofBitVec (unpackSign b)) := by
  unfold UnpackedFloat.unpack
  simp only
  split
  · next ones =>
    have zero := number (by rw [ones]; rfl)
    rw [if_pos (BitVec.eq_of_toNat_eq zero)]
    rfl
  · split
    · split <;> rfl
    · rfl

theorem toNat_unpackExponent (b : BitVec Format.binary64.numBits) :
    (unpackExponent b).toNat = b.toNat / 4503599627370496 % 2048 := by
  simp [unpackExponent, Nat.shiftRight_eq_div_pow]

theorem toNat_unpackMantissa (b : BitVec Format.binary64.numBits) :
    (unpackMantissa b).toNat = b.toNat % 4503599627370496 := by
  simp [unpackMantissa]

theorem toNat_unpackSign (b : BitVec Format.binary64.numBits) :
    (unpackSign b).toNat = b.toNat / 9223372036854775808 % 2 := by
  simp [unpackSign, Nat.shiftRight_eq_div_pow]

theorem infinityBits_eq : infinityBits = 9218868437227405312 := by decide +kernel

/-- The sign bit survives unpacking and packing. -/
theorem msb_pack_unpack {negative : Bool} {magnitude : Nat} {b : BitVec Format.binary64.numBits}
    (small : magnitude ≤ infinityBits)
    (value : b.toNat = magnitude + if negative then 9223372036854775808 else 0) :
    (UnpackedFloat.pack Format.binary64 (UnpackedFloat.unpack Format.binary64 b)).msb =
    negative := by
  rw [infinityBits_eq] at small
  have number : (unpackExponent b).toNat = 2047 → (unpackMantissa b).toNat = 0 := by
    rw [toNat_unpackExponent, toNat_unpackMantissa, value]
    split <;> omega
  have bit : unpackSign b = if negative then 1#1 else 0#1 := by
    refine BitVec.eq_of_toNat_eq ?_
    rw [toNat_unpackSign, value]
    cases negative
    · simp only [Bool.false_eq_true, if_false, BitVec.toNat_ofNat]
      omega
    · simp only [if_true, BitVec.toNat_ofNat]
      omega
  rw [msb_pack (signOf_unpack number), bit]
  cases negative <;> rfl

theorem isNegative_signed (negative : Bool) {magnitude : Nat} (small : magnitude ≤ infinityBits) :
    isNegative (signed negative magnitude) = negative := by
  have signBit : (if negative then Nat.pow 2 63 else 0) =
      if negative then 9223372036854775808 else 0 := by cases negative <;> rfl
  unfold signed
  rw [signBit, isNegative_eq_msb]
  refine msb_pack_unpack small ?_
  have bound := small
  rw [infinityBits_eq] at bound
  rw [UInt64.toNat_toBitVec, UInt64.toNat_ofNat']
  exact Nat.mod_eq_of_lt (by split <;> omega)

theorem ratioBits_le (num den : Nat) : ratioBits num den ≤ infinityBits := by
  unfold ratioBits
  split
  · exact Nat.zero_le _
  · simp only
    generalize max (-1074) _ = q
    split
    · exact Nat.le_refl _
    · exact Nat.min_le_left _ _

/-- A rounded decimal has the sign of the decimal. -/
theorem isNegative_ofDecimal (negative : Bool) (digits : Nat) (exponent : Int) :
    isNegative (ofDecimal negative digits exponent) = negative := by
  unfold ofDecimal
  simp only
  split
  · exact isNegative_signed negative (Nat.zero_le _)
  · split
    · exact isNegative_signed negative (Nat.le_refl _)
    · split <;> exact isNegative_signed negative (ratioBits_le _ _)

end Cascade.Binary64
