import Cascade.Proofs.FloatOrder

/-!
# Ints rounded to binary64 numbers

Where an int meets a float, the float nearest to it is taken. That float is an integer again, the
int itself up to 53 bits and else the nearest multiple of a power of two. Two ints are compared as
floats just as these integers are compared.

Rounding may carry a significand to the next power of two. This is the one place where numbers with
different exponents have the same nearest float, and the bits of the float carry in the same way, so
bits and values always agree on the order (`carry_cases`).

## Main definitions

* `Binary64.nearestNat`, `Binary64.nearestInt`: the integer that the nearest float is.

## Main statements

* `Binary64.ratioBits_one`: the bits of the float nearest to a natural number.
* `Binary64.ofInt_lt_iff`, `Binary64.ofInt_beq_iff`: comparing ints as floats.
* `Binary64.nearestInt_of_le`, `Binary64.nearestInt_mono`: rounding keeps ints of 53 bits and never
  turns the order around.
-/

namespace Cascade.Binary64

/-! ### Rounding a quotient -/

section

variable {num num' den : Nat}

theorem divRound_cases (num den : Nat) :
    (divRound num den = num / den ∧ 2 * (num % den) ≤ den) ∨
      (divRound num den = num / den + 1 ∧ den ≤ 2 * (num % den)) := by
  unfold divRound
  simp only
  split
  · right
    omega
  · left
    omega

theorem divRound_one (num : Nat) : divRound num 1 = num := by
  rcases divRound_cases num 1 with ⟨value, -⟩ | ⟨-, rest⟩
  · rw [value, Nat.div_one]
  · omega

theorem divRound_mono (le : num ≤ num') :
    divRound num den ≤ divRound num' den := by
  have quotients : num / den ≤ num' / den := Nat.div_le_div_right le
  rcases Nat.lt_or_eq_of_le quotients with less | same
  · rcases divRound_cases num den with ⟨value, -⟩ | ⟨value, -⟩ <;>
      rcases divRound_cases num' den with ⟨value', -⟩ | ⟨value', -⟩ <;> omega
  · have parts := Nat.div_add_mod num den
    have parts' := Nat.div_add_mod num' den
    rw [← same] at parts'
    unfold divRound
    simp only [← same]
    split <;> split <;> omega

theorem le_divRound (positive : 0 < den) {bound : Nat} (le : bound * den ≤ num) :
    bound ≤ divRound num den := by
  have quotient : bound ≤ num / den := (Nat.le_div_iff_mul_le positive).mpr le
  rcases divRound_cases num den with ⟨value, -⟩ | ⟨value, -⟩ <;> omega

theorem divRound_le (positive : 0 < den) {bound : Nat} (le : num ≤ bound * den) :
    divRound num den ≤ bound := by
  rcases Nat.lt_or_eq_of_le le with less | same
  · have quotient : num / den < bound := (Nat.div_lt_iff_lt_mul positive).mpr less
    rcases divRound_cases num den with ⟨value, -⟩ | ⟨value, -⟩ <;> omega
  · subst same
    rcases divRound_cases (bound * den) den with ⟨value, -⟩ | ⟨-, rest⟩
    · rw [value, Nat.mul_div_cancel _ positive]
    · rw [Nat.mul_mod_left] at rest
      omega

end

/-! ### The float nearest to a natural number -/

/-- The natural number that the float nearest to `n` is: `n` up to 53 bits, else the nearest
multiple of the power of two that leaves 53 bits. -/
def nearestNat (n : Nat) : Nat :=
  divRound n (Nat.pow 2 (n.log2 - 52)) * Nat.pow 2 (n.log2 - 52)

/-- The significand of 53 bits of the float nearest to `n`; it may be carried to `2^53`. -/
def roundedSignificand (n : Nat) : Nat :=
  divRound (n * Nat.pow 2 (52 - n.log2)) (Nat.pow 2 (n.log2 - 52))

theorem scaled_one (n : Nat) :
    scaled n 1 ((n.log2 : Int) - 52) = (n * Nat.pow 2 (52 - n.log2), Nat.pow 2 (n.log2 - 52)) := by
  unfold scaled
  by_cases wide : 52 ≤ n.log2
  · have exponent : ((n.log2 : Int) - 52).toNat = n.log2 - 52 := by omega
    have none : 52 - n.log2 = 0 := by omega
    rw [if_pos (by omega), exponent, none]
    simp
  · have exponent : (-((n.log2 : Int) - 52)).toNat = 52 - n.log2 := by omega
    have none : n.log2 - 52 = 0 := by omega
    rw [if_neg (by omega), exponent, none]

/-- Of the two scales around 52 bits one is idle. -/
theorem scale_eq (k : Nat) : Nat.pow 2 52 * Nat.pow 2 (k - 52) = 2 ^ k * Nat.pow 2 (52 - k) := by
  show 2 ^ 52 * 2 ^ (k - 52) = 2 ^ k * 2 ^ (52 - k)
  rw [← Nat.pow_add, ← Nat.pow_add]
  congr 1
  omega

theorem scale_pos (k : Nat) : 0 < Nat.pow 2 k := Nat.two_pow_pos k

theorem le_scaled {n : Nat} (positive : 0 < n) :
    Nat.pow 2 52 * Nat.pow 2 (n.log2 - 52) ≤ n * Nat.pow 2 (52 - n.log2) := by
  rw [scale_eq]
  exact Nat.mul_le_mul_right _ (Nat.log2_self_le (by omega))

theorem scaled_le (n : Nat) :
    n * Nat.pow 2 (52 - n.log2) ≤ Nat.pow 2 53 * Nat.pow 2 (n.log2 - 52) := by
  have high : n ≤ 2 * 2 ^ n.log2 := by
    have := Nat.lt_log2_self (n := n)
    rw [Nat.pow_succ] at this
    omega
  calc n * Nat.pow 2 (52 - n.log2)
      ≤ 2 * 2 ^ n.log2 * Nat.pow 2 (52 - n.log2) := Nat.mul_le_mul_right _ high
    _ = 2 * (Nat.pow 2 52 * Nat.pow 2 (n.log2 - 52)) := by rw [scale_eq, Nat.mul_assoc]
    _ = Nat.pow 2 53 * Nat.pow 2 (n.log2 - 52) := by rw [← Nat.mul_assoc]

theorem le_roundedSignificand {n : Nat} (positive : 0 < n) :
    Nat.pow 2 52 ≤ roundedSignificand n :=
  le_divRound (scale_pos _) (le_scaled positive)

theorem roundedSignificand_le (n : Nat) : roundedSignificand n ≤ Nat.pow 2 53 :=
  divRound_le (scale_pos _) (scaled_le n)

theorem nearestNat_mul (n : Nat) :
    nearestNat n * Nat.pow 2 52 = roundedSignificand n * 2 ^ n.log2 := by
  unfold nearestNat roundedSignificand
  by_cases wide : 52 ≤ n.log2
  · have none : 52 - n.log2 = 0 := by omega
    have scale := scale_eq n.log2
    rw [none] at scale ⊢
    rw [Nat.mul_assoc, Nat.mul_comm (Nat.pow 2 (n.log2 - 52)), scale]
    simp
  · have none : n.log2 - 52 = 0 := by omega
    have scale := scale_eq n.log2
    rw [none] at scale ⊢
    show divRound n 1 * 1 * _ = divRound _ 1 * _
    rw [divRound_one, divRound_one, Nat.mul_one, Nat.mul_assoc, Nat.mul_comm (Nat.pow 2 _), ← scale]

/-- The bits of the float nearest to a positive number of 64 bits: exponent and significand. -/
theorem ratioBits_one {n : Nat} (positive : 0 < n) (fits : n < 18446744073709551616) :
    ratioBits n 1 = (n.log2 + 1022) * Nat.pow 2 52 + roundedSignificand n := by
  have low := le_roundedSignificand positive
  have high := roundedSignificand_le n
  have bits : n.log2 < 64 := (Nat.log2_lt (by omega)).mpr fits
  have exponent : ((n.log2 : Int) - (Nat.log2 1 : Nat)) = n.log2 := by
    rw [show Nat.log2 1 = 0 by decide]
    omega
  have normal : (n * Nat.pow 2 (52 - n.log2)) / Nat.pow 2 (n.log2 - 52) ≥ Nat.pow 2 52 :=
    (Nat.le_div_iff_mul_le (scale_pos _)).mpr (le_scaled positive)
  have scale : max (-1074) ((n.log2 : Int) - 52) = n.log2 - 52 := by omega
  unfold ratioBits
  rw [if_neg (by omega)]
  simp only [exponent, scaled_one, if_pos normal, scale]
  rw [if_neg (by omega)]
  show min infinityBits (if roundedSignificand n < Nat.pow 2 52 then roundedSignificand n
    else ((n.log2 : Int) - 52 + 1074).toNat * Nat.pow 2 52 + roundedSignificand n) = _
  rw [if_neg (by omega), show ((n.log2 : Int) - 52 + 1074).toNat = n.log2 + 1022 by omega]
  have small : (n.log2 + 1022) * Nat.pow 2 52 ≤ 1085 * Nat.pow 2 52 :=
    Nat.mul_le_mul_right _ (by omega)
  rw [infinityBits_eq]
  have values : Nat.pow 2 52 = 4503599627370496 ∧ Nat.pow 2 53 = 9007199254740992 := ⟨rfl, rfl⟩
  omega

/-- A number with the smaller exponent is the smaller one, but for a significand that is carried to
the number with the next exponent. -/
theorem carry_cases {s t k l : Nat} (high : s ≤ Nat.pow 2 53) (low : Nat.pow 2 52 ≤ t)
    (less : k < l) :
    s * 2 ^ k < t * 2 ^ l ∧ (k + 1022) * Nat.pow 2 52 + s < (l + 1022) * Nat.pow 2 52 + t ∨
      s * 2 ^ k = t * 2 ^ l ∧ (k + 1022) * Nat.pow 2 52 + s = (l + 1022) * Nat.pow 2 52 + t := by
  rw [show Nat.pow 2 52 = 4503599627370496 from rfl] at *
  rw [show Nat.pow 2 53 = 9007199254740992 from rfl] at high
  obtain ⟨d, rfl⟩ := Nat.exists_eq_add_of_lt less
  have value : t * 2 ^ (k + d + 1) = 2 * t * 2 ^ d * 2 ^ k := by
    rw [Nat.pow_succ, Nat.pow_add]
    ring
  rw [value]
  have positive : 0 < 2 ^ k := Nat.two_pow_pos k
  rw [Nat.mul_lt_mul_right positive, Nat.mul_right_cancel_iff positive]
  cases d with
  | zero => omega
  | succ d =>
    have wide : 2 * t * 2 ≤ 2 * t * 2 ^ (d + 1) :=
      Nat.mul_le_mul_left _ (by rw [Nat.pow_succ]; have := Nat.two_pow_pos d; omega)
    omega

theorem ratioBits_lt_iff_of_pos {a b : Nat} (aPos : 0 < a) (bPos : 0 < b)
    (aFits : a < 18446744073709551616) (bFits : b < 18446744073709551616) :
    ratioBits a 1 < ratioBits b 1 ↔ nearestNat a < nearestNat b := by
  rw [ratioBits_one aPos aFits, ratioBits_one bPos bFits]
  have aValue := nearestNat_mul a
  have bValue := nearestNat_mul b
  have order : nearestNat a < nearestNat b ↔
      roundedSignificand a * 2 ^ a.log2 < roundedSignificand b * 2 ^ b.log2 := by
    rw [← aValue, ← bValue, Nat.mul_lt_mul_right (scale_pos 52)]
  rw [order]
  -- With one exponent the significands decide; with two the smaller one loses, up to a carry.
  rcases Nat.lt_trichotomy a.log2 b.log2 with less | same | greater
  · rcases carry_cases (roundedSignificand_le a) (le_roundedSignificand bPos) less with
      ⟨values, bits⟩ | ⟨values, bits⟩ <;> omega
  · rw [same, Nat.mul_lt_mul_right (Nat.two_pow_pos _)]
    omega
  · rcases carry_cases (roundedSignificand_le b) (le_roundedSignificand aPos) greater with
      ⟨values, bits⟩ | ⟨values, bits⟩ <;> omega

theorem ratioBits_pos {n : Nat} (positive : 0 < n) (fits : n < 18446744073709551616) :
    0 < ratioBits n 1 := by
  rw [ratioBits_one positive fits]
  have low := le_roundedSignificand positive
  have := scale_pos 52
  omega

theorem nearestNat_pos {n : Nat} (positive : 0 < n) : 0 < nearestNat n := by
  have value := nearestNat_mul n
  have low := Nat.lt_of_lt_of_le (scale_pos 52) (le_roundedSignificand positive)
  have scaled : 0 < nearestNat n * Nat.pow 2 52 := by
    rw [value]
    exact Nat.mul_pos low (Nat.two_pow_pos _)
  exact Nat.pos_of_mul_pos_right scaled

/-- Floats nearest to natural numbers are ordered like their bits. -/
theorem ratioBits_lt_iff {a b : Nat} (aFits : a < 18446744073709551616)
    (bFits : b < 18446744073709551616) :
    ratioBits a 1 < ratioBits b 1 ↔ nearestNat a < nearestNat b := by
  by_cases aPos : 0 < a
  · by_cases bPos : 0 < b
    · exact ratioBits_lt_iff_of_pos aPos bPos aFits bFits
    · obtain rfl : b = 0 := by omega
      exact iff_of_false (Nat.not_lt_zero _) (Nat.not_lt_zero _)
  · obtain rfl : a = 0 := by omega
    by_cases bPos : 0 < b
    · exact iff_of_true (ratioBits_pos bPos bFits) (nearestNat_pos bPos)
    · obtain rfl : b = 0 := by omega
      exact iff_of_false (Nat.lt_irrefl _) (Nat.lt_irrefl _)

/-- Numbers of 53 bits, and the next one, are floats. -/
theorem nearestNat_of_le {n : Nat} (le : n ≤ 9007199254740992) : nearestNat n = n := by
  by_cases short : n.log2 ≤ 52
  · unfold nearestNat
    rw [show n.log2 - 52 = 0 by omega]
    show divRound n 1 * 1 = n
    rw [divRound_one, Nat.mul_one]
  · have wide : 53 ≤ n.log2 := by omega
    have positive : n ≠ 0 := by
      rintro rfl
      cases wide
    have ge : 2 ^ 53 ≤ n := (Nat.le_log2 positive).mp wide
    obtain rfl : n = 9007199254740992 := by omega
    decide

theorem nearestNat_mono {a b : Nat} (le : a ≤ b) : nearestNat a ≤ nearestNat b := by
  by_cases aPos : 0 < a
  · have bPos : 0 < b := by omega
    have exponents : a.log2 ≤ b.log2 :=
      (Nat.le_log2 (by omega)).mpr (Nat.le_trans (Nat.log2_self_le (by omega)) le)
    rcases Nat.lt_or_eq_of_le exponents with less | same
    · have values := carry_cases (roundedSignificand_le a) (le_roundedSignificand bPos) less
      rw [← nearestNat_mul, ← nearestNat_mul] at values
      refine Nat.le_of_mul_le_mul_right ?_ (scale_pos 52)
      omega
    · unfold nearestNat
      rw [same]
      exact Nat.mul_le_mul_right _ (divRound_mono le)
  · obtain rfl : a = 0 := by omega
    exact Nat.zero_le _

/-! ### The float nearest to an int -/

/-- The integer that the float nearest to `n` is. -/
def nearestInt (n : Int) : Int :=
  if n < 0 then -nearestNat n.natAbs else nearestNat n.natAbs

theorem nearestInt_of_le {n : Int} (le : n.natAbs ≤ 9007199254740992) : nearestInt n = n := by
  unfold nearestInt
  rw [nearestNat_of_le le]
  split <;> omega

theorem nearestInt_mono {a b : Int} (le : a ≤ b) : nearestInt a ≤ nearestInt b := by
  unfold nearestInt
  split
  · split
    · have := nearestNat_mono (show b.natAbs ≤ a.natAbs by omega)
      omega
    · omega
  · rw [if_neg (by omega)]
    have := nearestNat_mono (show a.natAbs ≤ b.natAbs by omega)
    omega

theorem ratioBits_lt_infinityBits {n : Nat} (fits : n < 18446744073709551616) :
    ratioBits n 1 < infinityBits := by
  rw [infinityBits_eq]
  by_cases positive : 0 < n
  · have bits : n.log2 < 64 := (Nat.log2_lt (by omega)).mpr fits
    have high := roundedSignificand_le n
    rw [show Nat.pow 2 53 = 9007199254740992 from rfl] at high
    rw [ratioBits_one positive fits, show Nat.pow 2 52 = 4503599627370496 from rfl]
    omega
  · obtain rfl : n = 0 := by omega
    decide

section

variable {a b : Int} (aFits : a.natAbs < 18446744073709551616)
  (bFits : b.natAbs < 18446744073709551616)
include aFits bFits

/-- The bits of the nearest floats, read as integers, are ordered like these floats. -/
theorem signedBits_lt_iff :
    signedBits (a < 0) (ratioBits a.natAbs 1) < signedBits (b < 0) (ratioBits b.natAbs 1) ↔
      nearestInt a < nearestInt b := by
  have upward := ratioBits_lt_iff aFits bFits
  have downward := ratioBits_lt_iff bFits aFits
  unfold signedBits nearestInt
  by_cases aNeg : a < 0
  · have aBits := ratioBits_pos (show 0 < a.natAbs by omega) aFits
    have aNear := nearestNat_pos (show 0 < a.natAbs by omega)
    by_cases bNeg : b < 0
    · simp only [aNeg, bNeg, decide_true, if_true]
      omega
    · simp only [aNeg, bNeg, decide_true, decide_false, Bool.false_eq_true, if_true, if_false]
      omega
  · by_cases bNeg : b < 0
    · simp only [aNeg, bNeg, decide_true, decide_false, Bool.false_eq_true, if_true, if_false]
      omega
    · simp only [aNeg, bNeg, decide_false, Bool.false_eq_true, if_false]
      omega

theorem ofInt_lt_iff : ofInt a < ofInt b ↔ nearestInt a < nearestInt b := by
  show signed (a < 0) _ < signed (b < 0) _ ↔ _
  rw [signed_lt_iff (ratioBits_lt_infinityBits aFits) (ratioBits_lt_infinityBits bFits)]
  exact signedBits_lt_iff aFits bFits

theorem ofInt_beq_iff : (ofInt a == ofInt b) = true ↔ nearestInt a = nearestInt b := by
  show (signed (a < 0) _ == signed (b < 0) _) = true ↔ _
  rw [signed_beq_iff (ratioBits_lt_infinityBits aFits) (ratioBits_lt_infinityBits bFits)]
  have upward := signedBits_lt_iff aFits bFits
  have downward := signedBits_lt_iff bFits aFits
  omega

end

/-- Above 53 bits two ints may have one nearest float. -/
example : nearestInt 9007199254740993 = nearestInt 9007199254740992 := by decide

end Cascade.Binary64
