import Cascade.Proofs.RoundedInts

/-!
# Ratios that round to a binary64 number

A number `m · 2^q` of the format is the nearest one for every ratio between the middles to its
neighbours. Rounding a ratio first finds the exponent at which the significand has 53 bits, and then
the nearest significand. For a ratio around `m · 2^q` the exponent is `q`, but for ratios just below
a power of two, where the neighbour is half as far away: there the exponent is one less and the
significand is carried to `2^53`, which makes the same bits.

## Main definitions

* `Binary64.bitsOf`: the bits of a significand with its exponent.
* `Binary64.IsNear`: a ratio is nearer to a number than to its neighbours.

## Main statements

* `Binary64.ratioBits_of_isNear`: a ratio near a number rounds to the number.
-/

namespace Cascade.Binary64

/-! ### Significands -/

/-- The quotient is rounded to a number that is at most one half away; if it is one half away, the
number must be even. -/
theorem divRound_eq {num den m : Nat} (positive : 0 < den) (low : 2 * (m * den) ≤ 2 * num + den)
    (high : 2 * num ≤ 2 * (m * den) + den)
    (ties : m % 2 = 0 ∨ (2 * (m * den) < 2 * num + den ∧ 2 * num < 2 * (m * den) + den)) :
    divRound num den = m := by
  have parts := Nat.div_add_mod num den
  have rest := Nat.mod_lt num positive
  have above : num / den ≤ m := by
    by_contra more
    have step : (m + 1) * den ≤ num / den * den := Nat.mul_le_mul_right den (by omega)
    rw [Nat.add_mul, Nat.mul_comm (num / den)] at step
    omega
  have below : m ≤ num / den + 1 := by
    by_contra less
    have step : (num / den + 2) * den ≤ m * den := Nat.mul_le_mul_right den (by omega)
    rw [Nat.add_mul, Nat.mul_comm (num / den)] at step
    omega
  unfold divRound
  dsimp only
  rcases Nat.lt_or_eq_of_le above with less | same
  · obtain rfl : m = num / den + 1 := by omega
    rw [Nat.add_mul, Nat.mul_comm (num / den)] at low high ties
    rw [if_pos]
    omega
  · subst same
    rw [Nat.mul_comm (num / den)] at low high ties
    rw [if_neg]
    omega

/-! ### Exponents -/

section

variable {num den : Nat}

theorem two_zpow_pos (q : Int) : (0 : ℚ) < 2 ^ q := zpow_pos (by norm_num) q

/-- A scaled ratio is the ratio over the power of two. -/
theorem scaled_spec (num : Nat) {den : Nat} (positive : 0 < den) (q : Int) :
    0 < (scaled num den q).2 ∧
      ((scaled num den q).1 : ℚ) / (scaled num den q).2 = (num : ℚ) / den / 2 ^ q := by
  unfold scaled
  split
  · next natural =>
    refine ⟨Nat.mul_pos positive (scale_pos _), ?_⟩
    obtain ⟨k, rfl⟩ := Int.eq_ofNat_of_zero_le natural
    show (num : ℚ) / ((den * 2 ^ k : Nat) : ℚ) = _
    push_cast
    rw [zpow_natCast, div_div]
  · next negative =>
    refine ⟨positive, ?_⟩
    obtain ⟨k, hk⟩ := Int.eq_ofNat_of_zero_le (show 0 ≤ -q by omega)
    obtain rfl : q = -(k : Int) := by omega
    show ((num * 2 ^ (-(-(k : Int))).toNat : Nat) : ℚ) / den = _
    rw [neg_neg, Int.toNat_natCast, zpow_neg, zpow_natCast, div_inv_eq_mul]
    push_cast
    ring

/-- The exponent of the number nearest to a ratio, before a carry. -/
def ratioExponent (num den : Nat) : Int :=
  let e : Int := (num.log2 : Int) - (den.log2 : Int)
  let high := scaled num den (e - 52)
  max (-1074) (if high.1 / high.2 ≥ Nat.pow 2 52 then e - 52 else e - 53)

/-- The bits of a number by its significand and its exponent. -/
def bitsOf (m : Nat) (q : Int) : Nat :=
  if m < Nat.pow 2 52 then m else (q + 1074).toNat * Nat.pow 2 52 + m

theorem ratioBits_eq (positive : 0 < num) : ratioBits num den =
    if ratioExponent num den > 971 then infinityBits
    else min infinityBits (bitsOf (divRound (scaled num den (ratioExponent num den)).1
      (scaled num den (ratioExponent num den)).2) (ratioExponent num den)) := by
  unfold ratioBits
  rw [if_neg (by omega)]
  rfl

theorem two_zpow_log2_le (positive : 0 < num) : (2 : ℚ) ^ (num.log2 : Int) ≤ num := by
  rw [zpow_natCast]
  exact_mod_cast Nat.log2_self_le (by omega)

theorem lt_two_zpow_log2 (num : Nat) : (num : ℚ) < 2 ^ ((num.log2 : Int) + 1) := by
  rw [← Nat.cast_succ, zpow_natCast]
  exact_mod_cast Nat.lt_log2_self

/-- At the exponent of a ratio the significand has at most 53 bits, and exactly 53 unless the
exponent is the least one. -/
theorem ratioExponent_spec (numPositive : 0 < num) (denPositive : 0 < den) :
    (num : ℚ) / den < 2 ^ (ratioExponent num den + 53) ∧ -1074 ≤ ratioExponent num den ∧
      (ratioExponent num den = -1074 ∨ (2 : ℚ) ^ (ratioExponent num den + 52) ≤ num / den) := by
  have denRat : (0 : ℚ) < den := by exact_mod_cast denPositive
  have two : (2 : ℚ) ≠ 0 := by norm_num
  -- The ratio lies in the two binary orders around `e`.
  have above : (num : ℚ) / den < 2 ^ ((num.log2 : Int) - den.log2 + 1) := by
    rw [div_lt_iff₀ denRat]
    calc (num : ℚ) < 2 ^ ((num.log2 : Int) + 1) := lt_two_zpow_log2 num
      _ = 2 ^ ((num.log2 : Int) - den.log2 + 1) * 2 ^ (den.log2 : Int) := by
        rw [← zpow_add₀ two]
        congr 1
        omega
      _ ≤ 2 ^ ((num.log2 : Int) - den.log2 + 1) * den :=
        mul_le_mul_of_nonneg_left (two_zpow_log2_le denPositive) (two_zpow_pos _).le
  have below : (2 : ℚ) ^ ((num.log2 : Int) - den.log2 - 1) ≤ num / den := by
    rw [le_div_iff₀ denRat]
    calc (2 : ℚ) ^ ((num.log2 : Int) - den.log2 - 1) * den
        ≤ 2 ^ ((num.log2 : Int) - den.log2 - 1) * 2 ^ ((den.log2 : Int) + 1) :=
          mul_le_mul_of_nonneg_left (lt_two_zpow_log2 den).le (two_zpow_pos _).le
      _ = 2 ^ (num.log2 : Int) := by
        rw [← zpow_add₀ two]
        congr 1
        omega
      _ ≤ num := two_zpow_log2_le numPositive
  unfold ratioExponent
  extract_lets e high
  have test : high.1 / high.2 ≥ Nat.pow 2 52 ↔ (2 : ℚ) ^ e ≤ num / den := by
    obtain ⟨positive, value⟩ := scaled_spec num denPositive (e - 52)
    have highRat : (0 : ℚ) < high.2 := by exact_mod_cast positive
    rw [ge_iff_le, Nat.le_div_iff_mul_le positive]
    have cast : Nat.pow 2 52 * high.2 ≤ high.1 ↔ (2 : ℚ) ^ (52 : Int) ≤ (high.1 : ℚ) / high.2 := by
      rw [le_div_iff₀ highRat]
      exact_mod_cast Iff.rfl
    rw [cast, value, le_div_iff₀ (two_zpow_pos _), ← zpow_add₀ two]
    exact iff_of_eq (by congr 2; omega)
  have raise : ∀ {a b : Int}, a ≤ b → (2 : ℚ) ^ a ≤ 2 ^ b := fun le =>
    zpow_le_zpow_right₀ (by norm_num) le
  split
  · next large =>
    refine ⟨above.trans_le (raise (by omega)), le_max_left _ _, ?_⟩
    rcases max_cases (-1074) (e - 52) with ⟨least, -⟩ | ⟨same, -⟩
    · exact .inl least
    · right
      rw [same, sub_add_cancel]
      exact test.mp large
  · next small =>
    refine ⟨(not_le.mp (mt test.mpr small)).trans_le (raise (by omega)), le_max_left _ _, ?_⟩
    rcases max_cases (-1074) (e - 53) with ⟨least, -⟩ | ⟨same, -⟩
    · exact .inl least
    · right
      rw [same]
      exact (raise (by omega)).trans below

end

/-! ### Numbers and the ratios around them -/

/-- A positive finite number of the format by its significand and its exponent. The significand has
53 bits unless the exponent is the least one. -/
structure IsMagnitude (m : Nat) (q : Int) : Prop where
  positive : 0 < m
  bits : m < 2 ^ 53
  least : -1074 ≤ q
  greatest : q ≤ 971
  full : q = -1074 ∨ 2 ^ 52 ≤ m

/-- The way down to the middle below `m · 2^q`, in quarters of `2^q`. Below a power of two the
neighbour is half as far away. -/
def gapBelow (m : Nat) (q : Int) : Nat :=
  if m = 2 ^ 52 ∧ q > -1074 then 1 else 2

theorem gapBelow_le (m : Nat) (q : Int) : (gapBelow m q : ℚ) ≤ 2 := by
  unfold gapBelow
  split <;> norm_num

/-- The ratio is nearer to `m · 2^q` than to its neighbours, or in the middle to one of them if `m`
is even. -/
structure IsNear (m : Nat) (q : Int) (r : ℚ) : Prop where
  low : (4 * m - gapBelow m q) * 2 ^ (q - 2) ≤ r
  high : r ≤ (4 * m + 2) * 2 ^ (q - 2)
  ties : m % 2 = 0 ∨
    (4 * m - gapBelow m q) * 2 ^ (q - 2) < r ∧ r < (4 * m + 2) * 2 ^ (q - 2)

/-- A ratio near a number is positive, as the number is. -/
theorem IsNear.pos {m : Nat} {q : Int} {r : ℚ} (near : IsNear m q r)
    (magnitude : IsMagnitude m q) : 0 < r := by
  have one : (1 : ℚ) ≤ m := by exact_mod_cast magnitude.positive
  exact (mul_pos (by linarith [gapBelow_le m q]) (two_zpow_pos _)).trans_le near.low

theorem divRound_eq_of_near {num den m : Nat} (positive : 0 < den)
    (low : (m : ℚ) - 1 / 2 ≤ num / den) (high : (num : ℚ) / den ≤ m + 1 / 2)
    (ties : m % 2 = 0 ∨ (m : ℚ) - 1 / 2 < num / den ∧ (num : ℚ) / den < m + 1 / 2) :
    divRound num den = m := by
  have denRat : (0 : ℚ) < den := by exact_mod_cast positive
  refine divRound_eq positive ?_ ?_ (ties.imp_right fun inside => ⟨?_, ?_⟩)
  · rw [le_div_iff₀ denRat] at low
    have : (2 * (m * den) : ℚ) ≤ 2 * num + den := by linarith
    exact_mod_cast this
  · rw [div_le_iff₀ denRat] at high
    have : (2 * num : ℚ) ≤ 2 * (m * den) + den := by linarith
    exact_mod_cast this
  · have low := (lt_div_iff₀ denRat).mp inside.1
    have : (2 * (m * den) : ℚ) < 2 * num + den := by linarith
    exact_mod_cast this
  · have high := (div_lt_iff₀ denRat).mp inside.2
    have : (2 * num : ℚ) < 2 * (m * den) + den := by linarith
    exact_mod_cast this

theorem bitsOf_le {m : Nat} {q : Int} (magnitude : IsMagnitude m q) :
    bitsOf m q ≤ infinityBits := by
  have bits : m < 9007199254740992 := magnitude.bits
  have order : (q + 1074).toNat ≤ 2045 := by
    have := magnitude.greatest
    omega
  rw [infinityBits_eq]
  unfold bitsOf
  rw [show Nat.pow 2 52 = 4503599627370496 from rfl]
  generalize (q + 1074).toNat = exponent at order ⊢
  split <;> omega

/-- A ratio near a number rounds to the number. -/
theorem ratioBits_of_isNear {num den m : Nat} {q : Int} (numPositive : 0 < num)
    (denPositive : 0 < den) (magnitude : IsMagnitude m q) (near : IsNear m q ((num : ℚ) / den)) :
    ratioBits num den = bitsOf m q := by
  obtain ⟨above, least, below⟩ := ratioExponent_spec numPositive denPositive
  rw [ratioBits_eq numPositive]
  generalize ratioExponent num den = k at above least below ⊢
  obtain ⟨scaledPositive, value⟩ := scaled_spec num denPositive k
  generalize (num : ℚ) / den = r at near above below value
  have two : (2 : ℚ) ≠ 0 := by norm_num
  have unit := two_zpow_pos (q - 2)
  have split : ∀ n : Int, (2 : ℚ) ^ (q + n) = 2 ^ (n + 2) * 2 ^ (q - 2) := fun n => by
    rw [← zpow_add₀ two]
    congr 1
    omega
  have most : (m : ℚ) ≤ 2 ^ 53 - 1 := by
    have : (m + 1 : ℚ) ≤ 2 ^ 53 := by exact_mod_cast magnitude.bits
    linarith
  have lower : k ≤ q := by
    rcases below with rfl | below
    · exact magnitude.least
    · have : (2 : ℚ) ^ (k + 52) < 2 ^ (q + 53) := by
        refine below.trans_lt (near.high.trans_lt ?_)
        rw [split 53]
        exact mul_lt_mul_of_pos_right (by norm_num; linarith) unit
      have := (zpow_lt_zpow_iff_right₀ (by norm_num)).mp this
      omega
  rw [if_neg (by have := magnitude.greatest; omega)]
  suffices same : bitsOf (divRound (scaled num den k).1 (scaled num den k).2) k = bitsOf m q by
    rw [same]
    exact Nat.min_eq_right (bitsOf_le magnitude)
  rcases lower.eq_or_lt with rfl | less
  · -- The exponent is that of the number, and so is the significand.
    have quarters : (2 : ℚ) ^ k = 4 * 2 ^ (k - 2) := by
      rw [zpow_sub₀ two]
      ring
    have wide : (gapBelow m k : ℚ) * 2 ^ (k - 2) ≤ 2 * 2 ^ (k - 2) :=
      mul_le_mul_of_nonneg_right (gapBelow_le m k) unit.le
    obtain ⟨low, high, ties⟩ := near
    congr 1
    refine divRound_eq_of_near scaledPositive ?_ ?_ (ties.imp_right fun inside => ⟨?_, ?_⟩)
    · rw [value, le_div_iff₀ (two_zpow_pos k), quarters]
      linarith
    · rw [value, div_le_iff₀ (two_zpow_pos k), quarters]
      linarith
    · rw [value, lt_div_iff₀ (two_zpow_pos k), quarters]
      linarith [inside.1]
    · rw [value, div_lt_iff₀ (two_zpow_pos k), quarters]
      linarith [inside.2]
  · -- The number is a power of two and the ratio below it: the significand is carried.
    have full : 2 ^ 52 ≤ m := magnitude.full.resolve_left (by omega)
    have under : r < 2 ^ 54 * 2 ^ (q - 2) := by
      refine above.trans_le ?_
      rw [show (2 : ℚ) ^ 54 * 2 ^ (q - 2) = 2 ^ (q + 52) from (split 52).symm]
      exact zpow_le_zpow_right₀ (by norm_num) (by omega)
    have few : (4 * m - gapBelow m q : ℚ) < 2 ^ 54 :=
      lt_of_mul_lt_mul_right (near.low.trans_lt under) unit.le
    obtain rfl : m = 2 ^ 52 := by
      have : (4 * m : ℚ) < 2 ^ 54 + 2 := by linarith [gapBelow_le m q]
      have : 4 * m < 2 ^ 54 + 2 := by exact_mod_cast this
      omega
    have reached : (2 ^ 54 - 1) * (2 : ℚ) ^ (q - 2) ≤ r := by
      have low := near.low
      rw [gapBelow, if_pos ⟨rfl, by omega⟩] at low
      norm_num at low ⊢
      exact low
    obtain rfl : k = q - 1 := by
      have : (2 : ℚ) ^ (q + 51) < 2 ^ (k + 53) := by
        refine lt_of_le_of_lt ?_ (reached.trans_lt above)
        rw [split 51]
        exact mul_le_mul_of_nonneg_right (by norm_num) unit.le
      have := (zpow_lt_zpow_iff_right₀ (by norm_num)).mp this
      omega
    have halves : (2 : ℚ) ^ (q - 1) = 2 * 2 ^ (q - 2) := split (-1)
    have carried : divRound (scaled num den (q - 1)).1 (scaled num den (q - 1)).2 = 2 ^ 53 := by
      refine divRound_eq_of_near scaledPositive ?_ ?_ (.inl (by norm_num))
      · rw [value, le_div_iff₀ (two_zpow_pos _), halves]
        push_cast
        linarith
      · rw [value, div_le_iff₀ (two_zpow_pos _), halves]
        push_cast
        linarith
    rw [carried, bitsOf, bitsOf, show Nat.pow 2 52 = 2 ^ 52 from rfl, if_neg (by norm_num),
      if_neg (by norm_num), show (q + 1074).toNat = (q - 1 + 1074).toNat + 1 by omega]
    generalize (q - 1 + 1074).toNat = exponent
    omega

end Cascade.Binary64
