import Cascade.Number.Shortest
import Cascade.Proofs.NearestRatios
import Cascade.Proofs.ParserLaws

/-!
# Shortest decimals are near their number

The decimal that is searched for a number lies in the interval of the reals that read back as the
number. The search stops at the first grid that has a point of the interval, and the last grid that
it tries has one: at twenty places it is finer than half the way to a neighbour.

Where the leading digit stands is estimated with a bound of the logarithm, and corrected by at most
eight orders. Either the leading digit is found, or all eight orders are used up; the last grid is
fine enough in both cases (`finest_grid`).

## Main definitions

* `Decimal.value`: the rational number of a decimal.

## Main statements

* `Decimal.isNear_shortest`: the shortest decimal of a number is near the number.
-/

namespace Cascade

/-! ### Digits -/

theorem naturalOfDigits_append (cs ds : List Char) :
    naturalOfDigits (cs ++ ds) = naturalOfDigits cs * 10 ^ ds.length + naturalOfDigits ds := by
  have shift : ∀ n : Nat, ds.foldl (fun n c => n * 10 + (c.toNat - '0'.toNat)) n =
      n * 10 ^ ds.length + naturalOfDigits ds := by
    unfold naturalOfDigits
    induction ds with
    | nil => simp
    | cons d ds ih =>
      intro n
      rw [List.foldl_cons, ih, List.foldl_cons, ih (0 * 10 + _), List.length_cons]
      ring
  rw [naturalOfDigits, List.foldl_append]
  exact shift _

theorem naturalOfDigits_zeros (k : Nat) : naturalOfDigits (List.replicate k '0') = 0 := by
  induction k with
  | zero => rfl
  | succ k ih =>
    rw [List.replicate_succ', naturalOfDigits_append, ih]
    rfl

namespace Decimal

open Binary64

/-! ### Powers of ten -/

theorem ten_zpow_pos (e : Int) : (0 : ℚ) < 10 ^ e := zpow_pos (by norm_num) e

theorem power_pos (e : Int) : 0 < (power e).1 ∧ 0 < (power e).2 := by
  unfold power
  split
  · exact ⟨Nat.pow_pos (by norm_num), Nat.one_pos⟩
  · exact ⟨Nat.one_pos, Nat.pow_pos (by norm_num)⟩

theorem power_eq (e : Int) : ((power e).1 : ℚ) / (power e).2 = 10 ^ e := by
  unfold power
  split
  · next natural =>
    obtain ⟨k, rfl⟩ := Int.eq_ofNat_of_zero_le natural
    show ((10 ^ k : Nat) : ℚ) / ((1 : Nat) : ℚ) = _
    rw [zpow_natCast, Nat.cast_one, div_one]
    push_cast
    rfl
  · next negative =>
    obtain ⟨k, hk⟩ := Int.eq_ofNat_of_zero_le (show 0 ≤ -e by omega)
    obtain rfl : e = -(k : Int) := by omega
    show ((1 : Nat) : ℚ) / ((10 ^ (-(-(k : Int))).toNat : Nat) : ℚ) = _
    rw [neg_neg, Int.toNat_natCast, zpow_neg, zpow_natCast, Nat.cast_one, one_div]
    push_cast
    rfl

/-- Powers of two bases are ordered as two of their powers are. -/
theorem pow_le_pow_of_le {a b u v : Nat} (known : a ^ u ≤ b ^ v) (positive : 0 < b)
    (nonzero : u ≠ 0) {k l : Nat} (order : v * k ≤ u * l) : a ^ k ≤ b ^ l := by
  refine (Nat.pow_le_pow_iff_left nonzero).mp ?_
  calc (a ^ k) ^ u = (a ^ u) ^ k := by rw [← Nat.pow_mul, ← Nat.pow_mul, Nat.mul_comm]
    _ ≤ (b ^ v) ^ k := Nat.pow_le_pow_left known k
    _ = b ^ (v * k) := (Nat.pow_mul ..).symm
    _ ≤ b ^ (u * l) := Nat.pow_le_pow_right positive order
    _ = (b ^ l) ^ u := by rw [← Nat.pow_mul, Nat.mul_comm]

/-- A power of ten that is below a power of two by the estimate of the logarithm. -/
theorem ten_zpow_le_two_zpow {e l : Int} (up : 0 ≤ e → 10 * e ≤ 3 * l)
    (down : e < 0 → 93 * e ≤ 28 * l) : (10 : ℚ) ^ e ≤ 2 ^ l := by
  rcases le_or_gt 0 e with natural | negative
  · have order := up natural
    obtain ⟨k, rfl⟩ := Int.eq_ofNat_of_zero_le natural
    obtain ⟨n, rfl⟩ := Int.eq_ofNat_of_zero_le (show 0 ≤ l by omega)
    rw [zpow_natCast, zpow_natCast]
    have : 10 ^ k ≤ 2 ^ n := pow_le_pow_of_le (show 10 ^ 3 ≤ 2 ^ 10 by norm_num) (by norm_num)
      (by norm_num) (by omega)
    exact_mod_cast this
  · have order := down negative
    rcases le_or_gt 0 l with above | below
    · exact (zpow_le_one_of_nonpos₀ (by norm_num) negative.le).trans
        (one_le_zpow₀ (by norm_num) above)
    · obtain ⟨k, hk⟩ := Int.eq_ofNat_of_zero_le (show 0 ≤ -e by omega)
      obtain ⟨n, hn⟩ := Int.eq_ofNat_of_zero_le (show 0 ≤ -l by omega)
      obtain rfl : e = -(k : Int) := by omega
      obtain rfl : l = -(n : Int) := by omega
      have : 2 ^ n ≤ 10 ^ k := pow_le_pow_of_le (show 2 ^ 93 ≤ 10 ^ 28 by norm_num) (by norm_num)
        (by norm_num) (by omega)
      rw [zpow_neg, zpow_neg, zpow_natCast, zpow_natCast]
      refine inv_anti₀ (by positivity) ?_
      exact_mod_cast this

/-- A power of two that is below a power of ten. -/
theorem two_zpow_le_ten_zpow {l e : Int} (natural : 0 ≤ l) (order : 4 * l ≤ 13 * e) :
    (2 : ℚ) ^ l ≤ 10 ^ e := by
  obtain ⟨n, rfl⟩ := Int.eq_ofNat_of_zero_le natural
  obtain ⟨k, rfl⟩ := Int.eq_ofNat_of_zero_le (show 0 ≤ e by omega)
  have : 2 ^ n ≤ 10 ^ k := pow_le_pow_of_le (show 2 ^ 13 ≤ 10 ^ 4 by norm_num) (by norm_num)
    (by norm_num) (by omega)
  rw [zpow_natCast, zpow_natCast]
  exact_mod_cast this

/-! ### The interval -/

section

variable {x : Float} {m : Nat} {q : Int}

/-- The interval of a number by its significand and its exponent. -/
theorem interval_eq (decoded : decode x = ⟨m, q⟩) : interval x =
    ⟨(4 * m - gapBelow m q) * Nat.pow 2 (max (q - 2) 0).toNat,
      4 * m * Nat.pow 2 (max (q - 2) 0).toNat, (4 * m + 2) * Nat.pow 2 (max (q - 2) 0).toNat,
      Nat.pow 2 (max (2 - q) 0).toNat, m % 2 = 0⟩ := by
  unfold interval
  rw [decoded]
  rfl

/-- The scale of the interval. -/
theorem scale_interval (q : Int) : ((Nat.pow 2 (max (q - 2) 0).toNat : Nat) : ℚ) /
    (Nat.pow 2 (max (2 - q) 0).toNat : Nat) = 2 ^ (q - 2) := by
  rcases le_total 2 q with high | low
  · obtain ⟨k, hk⟩ := Int.eq_ofNat_of_zero_le (show 0 ≤ q - 2 by omega)
    rw [max_eq_left (by omega), max_eq_right (by omega), hk]
    show ((2 ^ k : Nat) : ℚ) / ((2 ^ 0 : Nat) : ℚ) = _
    push_cast
    rw [div_one, zpow_natCast]
  · obtain ⟨k, hk⟩ := Int.eq_ofNat_of_zero_le (show 0 ≤ 2 - q by omega)
    rw [max_eq_right (by omega), max_eq_left (by omega), hk, show q - 2 = -(k : Int) by omega]
    show ((2 ^ 0 : Nat) : ℚ) / ((2 ^ k : Nat) : ℚ) = _
    push_cast
    rw [one_div, zpow_neg, zpow_natCast]

/-- A point of a grid that the interval contains is near the number. -/
theorem contains_interval_iff (decoded : decode x = ⟨m, q⟩) (positive : 0 < m) {n num den : Nat}
    (denPositive : 0 < den) :
    (interval x).contains n num den = true ↔ IsNear m q (n * (num / den)) := by
  have scale := scale_interval q
  rw [interval_eq decoded]
  unfold Interval.contains
  dsimp only
  have scalePositive : 0 < Nat.pow 2 (max (2 - q) 0).toNat := scale_pos _
  generalize Nat.pow 2 (max (q - 2) 0).toNat = s at scale ⊢
  generalize Nat.pow 2 (max (2 - q) 0).toNat = d at scale scalePositive ⊢
  have dRat : (0 : ℚ) < d := by exact_mod_cast scalePositive
  have denRat : (0 : ℚ) < den := by exact_mod_cast denPositive
  have low : ((4 * m - gapBelow m q : Nat) : ℚ) = 4 * m - gapBelow m q := by
    rw [Nat.cast_sub]
    · push_cast
      rfl
    · unfold gapBelow
      split <;> omega
  have end_eq : ∀ l : Nat, (l : ℚ) * 2 ^ (q - 2) = ((l * s : Nat) : ℚ) / d := fun l => by
    rw [← scale]
    push_cast
    ring
  have point : (n : ℚ) * (num / den) = ((n * num : Nat) : ℚ) / den := by
    push_cast
    ring
  have le_iff : ∀ a b : Nat, ((a : ℚ) / d ≤ b / den ↔ a * den ≤ b * d) := fun a b => by
    rw [div_le_div_iff₀ dRat denRat]
    exact_mod_cast Iff.rfl
  have ge_iff : ∀ a b : Nat, ((b : ℚ) / den ≤ a / d ↔ b * d ≤ a * den) := fun a b => by
    rw [div_le_div_iff₀ denRat dRat]
    exact_mod_cast Iff.rfl
  have high : (4 * m + 2 : ℚ) = ((4 * m + 2 : Nat) : ℚ) := by push_cast; rfl
  have near : IsNear m q (n * (num / den)) ↔
      (4 * m - gapBelow m q) * s * den ≤ n * num * d ∧ n * num * d ≤ (4 * m + 2) * s * den ∧
        (m % 2 = 0 ∨ (4 * m - gapBelow m q) * s * den < n * num * d ∧
          n * num * d < (4 * m + 2) * s * den) := by
    rw [← le_iff, ← ge_iff, ← not_le (a := n * num * d), ← not_le (b := n * num * d), ← ge_iff,
      ← le_iff, ← end_eq, ← end_eq, ← point, low, ← high, not_le, not_le]
    constructor
    · intro near
      exact ⟨near.low, near.high, near.ties⟩
    · rintro ⟨low, high, ties⟩
      exact ⟨low, high, ties⟩
  rw [near]
  by_cases even : m % 2 = 0
  · simp [even]
  · simp only [even, decide_false, Bool.false_eq_true, if_false, false_or, Bool.and_eq_true,
      decide_eq_true_eq]
    omega

/-- The value of the interval is the number. -/
theorem value_interval (decoded : decode x = ⟨m, q⟩) :
    ((interval x).value : ℚ) / (interval x).den = m * 2 ^ q := by
  have quarters : (2 : ℚ) ^ q = 4 * 2 ^ (q - 2) := by
    rw [zpow_sub₀ (by norm_num)]
    ring
  rw [interval_eq decoded, quarters, ← scale_interval q]
  dsimp only
  rw [Nat.cast_mul, Nat.cast_mul]
  push_cast
  ring

theorem den_interval_pos (x : Float) : 0 < (interval x).den := scale_pos _

end

/-! ### The search -/

section

variable {i : Interval} {tie : TieRule} {point : Int} {places n : Nat}

/-- A point that is found on a grid is in the interval. -/
theorem contains_of_onGrid (found : onGrid tie i point places = some n) :
    i.contains n (power (point - places)).1 (power (point - places)).2 = true := by
  unfold onGrid at found
  generalize power (point - places) = unit at found ⊢
  obtain ⟨unitNum, unitDen⟩ := unit
  dsimp only at found ⊢
  split at found
  · cases found
  · cases found
    assumption
  · cases found
    assumption
  · next left right =>
    split at found
    · cases found
      exact left
    · split at found
      · cases found
        exact right
      · split at found
        · cases found
          exact right
        · cases found
          split
          · exact left
          · exact right

/-- There is a point on a grid if the next point above the value is in the interval. -/
theorem exists_onGrid (tie : TieRule)
    (above : i.contains (i.value * (power (point - places)).2 /
      (i.den * (power (point - places)).1) + 1) (power (point - places)).1
        (power (point - places)).2 = true) : ∃ n, onGrid tie i point places = some n := by
  unfold onGrid
  generalize power (point - places) = unit at above ⊢
  obtain ⟨unitNum, unitDen⟩ := unit
  dsimp only at above ⊢
  split
  · next right =>
    rw [above] at right
    cases right
  · exact ⟨_, rfl⟩
  · exact ⟨_, rfl⟩
  · split
    · exact ⟨_, rfl⟩
    · split
      · exact ⟨_, rfl⟩
      · split
        · exact ⟨_, rfl⟩
        · exact ⟨_, rfl⟩

/-- The search stops at a grid with a point of the interval, if it meets one. -/
theorem onGrid_search {fuel start : Nat} (meets : ∃ n, onGrid tie i point places = some n)
    (first : start ≤ places) (last : places < start + fuel) :
    onGrid tie i point (search tie i point fuel start).2 =
      some (search tie i point fuel start).1 := by
  induction fuel generalizing start with
  | zero => omega
  | succ fuel ih =>
    rw [search]
    split
    · next n found => exact found
    · next none =>
      refine ih ?_ (by omega)
      by_contra before
      obtain rfl : start = places := by omega
      obtain ⟨n, found⟩ := meets
      rw [none] at found
      cases found

end

/-- The position of the leading digit, unless the search for it ends before. -/
theorem position_spec (num : Nat) {den : Nat} (positive : 0 < den) (fuel : Nat) (bound : Int) :
    (10 : ℚ) ^ (position num den fuel bound - 1) ≤ num / den ∨
      position num den fuel bound = bound - fuel := by
  induction fuel generalizing bound with
  | zero =>
    right
    rw [position]
    omega
  | succ fuel ih =>
    have value := power_eq (bound - 1)
    have unitPositive := (power_pos (bound - 1)).2
    rw [position]
    generalize power (bound - 1) = unit at value unitPositive ⊢
    obtain ⟨unitNum, unitDen⟩ := unit
    dsimp only at value unitPositive ⊢
    split
    · next least =>
      left
      have denRat : (0 : ℚ) < den := by exact_mod_cast positive
      have unitRat : (0 : ℚ) < unitDen := by exact_mod_cast unitPositive
      rw [← value, div_le_div_iff₀ unitRat denRat]
      exact_mod_cast least
    · rcases ih (bound - 1) with before | stopped
      · exact .inl before
      · right
        rw [stopped]
        omega

/-! ### The finest grid -/

section

variable {x : Float} {m : Nat} {q : Int}

/-- Where the search for the leading digit starts. -/
def positionBound (m : Nat) (q : Int) : Int := ((m.log2 : Int) + q + 1) * 30103 / 100000 + 2

/-- The grid of twenty places is finer than half the way to a neighbour. -/
theorem finest_grid (decoded : decode x = ⟨m, q⟩) (magnitude : IsMagnitude m q) :
    (10 : ℚ) ^ (position (interval x).value (interval x).den 8 (positionBound m q) - 20) ≤
      2 ^ (q - 2) := by
  rcases position_spec (interval x).value (den_interval_pos x) 8 (positionBound m q) with
    least | stopped
  · -- At most `2^55` such halves make up the number, and `10^19` is more.
    rw [value_interval decoded] at least
    have below : (m : ℚ) * 2 ^ q ≤ 2 ^ (55 : Int) * 2 ^ (q - 2) := by
      have bits : (m : ℚ) ≤ 2 ^ 53 := by exact_mod_cast magnitude.bits.le
      rw [← zpow_add₀ (by norm_num), show (55 : Int) + (q - 2) = 53 + q by omega,
        zpow_add₀ (by norm_num)]
      exact mul_le_mul_of_nonneg_right bits (two_zpow_pos q).le
    generalize position (interval x).value (interval x).den 8 (positionBound m q) = p at least ⊢
    rw [show p - 20 = p - 1 + (-19) by omega, zpow_add₀ (by norm_num)]
    calc (10 : ℚ) ^ (p - 1) * 10 ^ (-19 : Int)
        ≤ 2 ^ (55 : Int) * 2 ^ (q - 2) * 10 ^ (-19 : Int) :=
          mul_le_mul_of_nonneg_right (least.trans below) (ten_zpow_pos _).le
      _ = 2 ^ (q - 2) * (2 ^ (55 : Int) * 10 ^ (-19 : Int)) := by ring
      _ ≤ 2 ^ (q - 2) * 1 := mul_le_mul_of_nonneg_left (by norm_num) (two_zpow_pos _).le
      _ = 2 ^ (q - 2) := mul_one _
  · -- All eight orders are used up: the estimate by itself is low enough.
    rw [stopped]
    have order : m.log2 < 53 := (Nat.log2_lt magnitude.positive.ne').mpr magnitude.bits
    have least := magnitude.least
    have greatest := magnitude.greatest
    unfold positionBound
    apply ten_zpow_le_two_zpow
    · omega
    · omega

/-- The next point above the number is near the number if the grid is fine. -/
theorem isNear_above {num den value scale : Nat} (numPositive : 0 < num) (denPositive : 0 < den)
    (scalePositive : 0 < scale) (number : (value : ℚ) / scale = m * 2 ^ q)
    (fine : (num : ℚ) / den ≤ 2 ^ (q - 2)) :
    IsNear m q ((value * den / (scale * num) + 1 : Nat) * (num / den)) := by
  have quarters : (2 : ℚ) ^ q = 4 * 2 ^ (q - 2) := by
    rw [zpow_sub₀ (by norm_num)]
    ring
  have unit := two_zpow_pos (q - 2)
  have step : 0 < scale * num := Nat.mul_pos scalePositive numPositive
  have floor : value * den / (scale * num) * (scale * num) ≤ value * den := Nat.div_mul_le_self _ _
  have next : value * den < (value * den / (scale * num) + 1) * (scale * num) := by
    rw [Nat.add_mul, Nat.one_mul]
    exact Nat.lt_div_mul_add step
  generalize value * den / (scale * num) = n at floor next ⊢
  have denRat : (0 : ℚ) < den := by exact_mod_cast denPositive
  have scaleRat : (0 : ℚ) < scale := by exact_mod_cast scalePositive
  have above : (m : ℚ) * 2 ^ q < (n + 1 : Nat) * (num / den) := by
    rw [← number, ← mul_div_assoc, div_lt_div_iff₀ scaleRat denRat]
    have : value * den < (n + 1) * num * scale := by
      rw [Nat.mul_assoc, Nat.mul_comm num]
      exact next
    exact_mod_cast this
  have below : (n : ℚ) * (num / den) ≤ m * 2 ^ q := by
    rw [← number, ← mul_div_assoc, div_le_div_iff₀ denRat scaleRat]
    have : n * num * scale ≤ value * den := by
      rw [Nat.mul_assoc, Nat.mul_comm num]
      exact floor
    exact_mod_cast this
  have gap : (0 : ℚ) ≤ gapBelow m q * 2 ^ (q - 2) := by positivity
  rw [quarters] at above below
  have low : (4 * m - gapBelow m q) * 2 ^ (q - 2) < ((n + 1 : Nat) : ℚ) * (num / den) := by
    refine lt_of_le_of_lt ?_ above
    linarith
  have high : ((n + 1 : Nat) : ℚ) * (num / den) < (4 * m + 2) * 2 ^ (q - 2) := by
    rw [Nat.cast_succ, add_mul, one_mul]
    linarith
  exact ⟨low.le, high.le, .inr ⟨low, high⟩⟩

end

/-! ### The decimal -/

/-- Digits without the zeros at their end. -/
theorem exists_trimmed (digits : List Char) : ∃ k,
    digits = (digits.reverse.dropWhile (· == '0')).reverse ++ List.replicate k '0' := by
  have zeros : digits.reverse.takeWhile (· == '0') =
      List.replicate (digits.reverse.takeWhile (· == '0')).length '0' :=
    List.eq_replicate_of_mem fun c member => by
      simpa using List.mem_takeWhile_imp member
  refine ⟨(digits.reverse.takeWhile (· == '0')).length, ?_⟩
  rw [← List.reverse_inj, List.reverse_append, List.reverse_reverse, List.reverse_replicate,
    ← zeros, List.takeWhile_append_dropWhile]

/-- The rational number of a decimal. -/
def value (d : Decimal) : ℚ := naturalOfDigits d.digits * 10 ^ (d.point - d.digits.length)

/-- Zeros behind the digits make no difference. -/
theorem value_append_zeros (digits : List Char) (k : Nat) (point : Int) :
    value ⟨digits ++ List.replicate k '0', point⟩ = value ⟨digits, point⟩ := by
  unfold value
  dsimp only
  rw [naturalOfDigits_append, naturalOfDigits_zeros, List.length_append, List.length_replicate,
    Nat.add_zero, Nat.cast_mul, Nat.cast_pow, mul_assoc, ← zpow_natCast, Nat.cast_ofNat,
    ← zpow_add₀ (by norm_num)]
  congr 2
  push_cast
  omega

/-- The decimal consists of digits and is not zero. -/
structure IsProper (d : Decimal) : Prop where
  digital : ∀ c ∈ d.digits, c.isDigit = true
  positive : 0 < naturalOfDigits d.digits

theorem IsProper.nonempty {d : Decimal} (proper : d.IsProper) : d.digits ≠ [] := by
  intro empty
  have positive := proper.positive
  rw [empty] at positive
  cases positive

/-- Digits that make a decimal near a number are not zero. -/
theorem IsProper.of_isNear {d : Decimal} {m : Nat} {q : Int} (magnitude : IsMagnitude m q)
    (near : IsNear m q d.value) (digital : ∀ c ∈ d.digits, c.isDigit = true) : d.IsProper := by
  refine ⟨digital, Nat.pos_of_ne_zero fun zero => ?_⟩
  have positive := near.pos magnitude
  rw [value, zero, Nat.cast_zero, zero_mul] at positive
  exact lt_irrefl _ positive

/-- The shortest decimal of a number is near the number. -/
theorem isNear_shortest (tie : TieRule) {x : Float} {m : Nat} {q : Int}
    (decoded : decode x = ⟨m, q⟩) (magnitude : IsMagnitude m q) :
    IsNear m q (shortest tie x).value ∧ (shortest tie x).IsProper := by
  have fine := finest_grid decoded magnitude
  unfold shortest
  rw [decoded]
  dsimp only
  rw [show ((m.log2 : Int) + q + 1) * 30103 / 100000 + 2 = positionBound m q from rfl]
  generalize position (interval x).value (interval x).den 8 (positionBound m q) = point at fine ⊢
  have meets : ∃ n, onGrid tie (interval x) point 20 = some n := by
    obtain ⟨numPositive, denPositive⟩ := power_pos (point - (20 : Nat))
    refine exists_onGrid tie ((contains_interval_iff decoded magnitude.positive denPositive).mpr ?_)
    refine isNear_above numPositive denPositive (den_interval_pos x) (value_interval decoded) ?_
    rw [power_eq]
    exact fine
  have stops : onGrid tie (interval x) point (search tie (interval x) point 20 1).2 =
      some (search tie (interval x) point 20 1).1 := onGrid_search meets (by omega) (by omega)
  have found := contains_of_onGrid stops
  clear stops
  generalize search tie (interval x) point 20 1 = result at found ⊢
  obtain ⟨n, places⟩ := result
  dsimp only at found ⊢
  have near := (contains_interval_iff decoded magnitude.positive (power_pos _).2).mp found
  -- What is written are the digits of the point that was found, without the zeros at their end.
  obtain ⟨k, parts⟩ := exists_trimmed (Nat.toDigits 10 n)
  have same : (⟨((Nat.toDigits 10 n).reverse.dropWhile (· == '0')).reverse,
      point + (((Nat.toDigits 10 n).length : Int) - places)⟩ : Decimal).value =
        n * 10 ^ (point - places) := by
    rw [← value_append_zeros _ k, ← parts, value, naturalOfDigits_toDigits]
    dsimp only
    congr 2
    omega
  rw [power_eq, ← same] at near
  refine ⟨near, .of_isNear magnitude near fun c member => ?_⟩
  refine Nat.isDigit_of_mem_toDigits (b := 10) (by omega) (by omega) (n := n) ?_
  rw [parts]
  exact List.mem_append_left _ member

end Decimal

end Cascade
