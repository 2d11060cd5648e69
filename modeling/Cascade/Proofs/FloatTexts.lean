import Cascade.Proofs.ShortestDecimals
import Cascade.Proofs.Tokens

/-!
# Floats are read back from their texts

A finite float that is written as a literal is read back as the same float, bit for bit, and only
finite floats have a text that is a number. The digits that are written make a decimal near the
float, whatever their layout, and every decimal near a float is rounded to the float.

## Main statements

* `Binary64.ofDecimal_of_isNear`: a decimal near a float is rounded to the float.
* `Grammar.readsBack_iff`: exactly the finite floats read back.
-/

namespace Cascade

namespace Binary64

/-! ### The parts of a float -/

section

variable {x : Float}

/-- A float is its sign, its exponent field and its fraction field put together. -/
theorem toBits_eq (x : Float) : x.toBits.toNat =
    exponentField x * 4503599627370496 + fractionField x +
      if isNegative x then 9223372036854775808 else 0 := by
  have bound := x.toBits.toNat_lt
  unfold exponentField fractionField isNegative
  rw [show Nat.pow 2 52 = 4503599627370496 from rfl, show Nat.pow 2 11 = 2048 from rfl,
    show Nat.pow 2 63 = 9223372036854775808 from rfl]
  generalize x.toBits.toNat = b at bound ⊢
  simp only [ge_iff_le, decide_eq_true_eq]
  split <;> omega

/-- A float is the one with its sign and the bits of its magnitude. -/
theorem signed_eq_self (x : Float) :
    signed (isNegative x) (exponentField x * 4503599627370496 + fractionField x) = x := by
  have bits : (exponentField x * 4503599627370496 + fractionField x +
      if isNegative x then Nat.pow 2 63 else 0) = x.toBits.toNat := (toBits_eq x).symm
  unfold signed
  rw [bits, UInt64.ofNat_toNat, Float.ofBits_toBits]

theorem exponentField_lt (x : Float) : exponentField x < 2048 := Nat.mod_lt _ (by decide)

theorem fractionField_lt (x : Float) : fractionField x < 4503599627370496 :=
  Nat.mod_lt _ (by decide)

/-- A finite float that is not zero has a magnitude of the format. -/
theorem exists_magnitude (finite : isFinite x = true) (nonzero : isZero x = false) :
    ∃ m q, decode x = ⟨m, q⟩ ∧ IsMagnitude m q ∧ signed (isNegative x) (bitsOf m q) = x := by
  have exponent := exponentField_lt x
  have fraction := fractionField_lt x
  have ordinary : exponentField x ≠ 2047 := by simpa [isFinite] using finite
  have some : exponentField x = 0 → fractionField x ≠ 0 := by simpa [isZero] using nonzero
  have whole := signed_eq_self x
  unfold decode
  rw [show Nat.pow 2 52 = 4503599627370496 from rfl]
  generalize exponentField x = e at exponent ordinary some whole ⊢
  generalize fractionField x = f at fraction some whole ⊢
  split
  · next least =>
    refine ⟨f, -1074, rfl, ⟨?_, ?_, ?_, ?_, .inl rfl⟩, ?_⟩
    · have := some least
      omega
    · omega
    · omega
    · omega
    · rw [least, Nat.zero_mul, Nat.zero_add] at whole
      rw [bitsOf, if_pos fraction]
      exact whole
  · next more =>
    refine ⟨f + 4503599627370496, (e : Int) - 1075, rfl, ⟨?_, ?_, ?_, ?_, .inr ?_⟩, ?_⟩
    · omega
    · omega
    · omega
    · omega
    · omega
    · have order : ((e : Int) - 1075 + 1074).toNat * 4503599627370496 + (f + 4503599627370496) =
          e * 4503599627370496 + f := by
        rw [show ((e : Int) - 1075 + 1074).toNat = e - 1 by omega]
        obtain ⟨k, rfl⟩ := Nat.exists_eq_succ_of_ne_zero more
        omega
      rw [bitsOf, show Nat.pow 2 52 = 4503599627370496 from rfl, if_neg (by omega), order]
      exact whole

end

/-! ### Decimals near a float -/

theorem pow_length_toDigits_le {n : Nat} (positive : 0 < n) :
    10 ^ ((Nat.toDigits 10 n).length - 1) ≤ n := by
  by_contra less
  have width : 0 < (Nat.toDigits 10 n).length := Nat.length_toDigits_pos
  rcases Nat.lt_or_eq_of_le (show 1 ≤ (Nat.toDigits 10 n).length from width) with long | short
  · have shorter :=
      (Nat.length_toDigits_le_iff (b := 10) (by omega) (by omega)).mpr (not_le.mp less)
    omega
  · rw [← short] at less
    omega

/-- A decimal near a number has an exponent at which decimals are looked at. -/
theorem exponent_of_isNear {m n k : Nat} {q e : Int} (magnitude : IsMagnitude m q)
    (least : 10 ^ (k - 1) ≤ n) (below : n < 10 ^ k) (near : IsNear m q (n * 10 ^ e)) :
    -400 ≤ e + k ∧ e + k ≤ 400 := by
  have one : (1 : ℚ) ≤ m := by exact_mod_cast magnitude.positive
  have bits : (m : ℚ) ≤ 2 ^ 53 := by exact_mod_cast magnitude.bits.le
  have unit := two_zpow_pos (q - 2)
  have ten : (10 : ℚ) ≠ 0 := by norm_num
  -- Outside these exponents a decimal is below the least number, or above the greatest one.
  constructor
  · by_contra small
    have less : (2 : ℚ) ^ (q - 2) < 2 ^ (q - 2) := calc
      (2 : ℚ) ^ (q - 2) ≤ (4 * m - gapBelow m q) * 2 ^ (q - 2) :=
          le_mul_of_one_le_left unit.le (by linarith [gapBelow_le m q])
      _ ≤ n * 10 ^ e := near.low
      _ < 10 ^ (k : Int) * 10 ^ e :=
          mul_lt_mul_of_pos_right (by exact_mod_cast below) (Decimal.ten_zpow_pos e)
      _ = 10 ^ (k + e) := (zpow_add₀ ten _ _).symm
      _ ≤ 2 ^ (q - 2) := Decimal.ten_zpow_le_two_zpow (by omega) (by have := magnitude.least; omega)
    exact lt_irrefl _ less
  · by_contra large
    have greater : (10 : ℚ) ^ (400 : Int) < 10 ^ (400 : Int) := calc
      (10 : ℚ) ^ (400 : Int) ≤ 10 ^ (((k - 1 : Nat) : Int) + e) :=
          zpow_le_zpow_right₀ (by norm_num) (by omega)
      _ = 10 ^ ((k - 1 : Nat) : Int) * 10 ^ e := zpow_add₀ ten _ _
      _ ≤ n * 10 ^ e :=
          mul_le_mul_of_nonneg_right (by exact_mod_cast least) (Decimal.ten_zpow_pos e).le
      _ ≤ (4 * m + 2) * 2 ^ (q - 2) := near.high
      _ ≤ 2 ^ (56 : Int) * 2 ^ (969 : Int) := by
          refine mul_le_mul (by norm_num; linarith) ?_ unit.le (by positivity)
          exact zpow_le_zpow_right₀ (by norm_num) (by have := magnitude.greatest; omega)
      _ = 2 ^ (1025 : Int) := (zpow_add₀ (by norm_num) _ _).symm
      _ ≤ 10 ^ (320 : Int) := Decimal.two_zpow_le_ten_zpow (by omega) (by omega)
      _ < 10 ^ (400 : Int) := zpow_lt_zpow_right₀ (by norm_num) (by omega)
    exact lt_irrefl _ greater

/-- A decimal near a number is rounded to the number. -/
theorem ofDecimal_of_isNear {m n : Nat} {q e : Int} (negative : Bool) (magnitude : IsMagnitude m q)
    (positive : 0 < n) (near : IsNear m q (n * 10 ^ e)) :
    ofDecimal negative n e = signed negative (bitsOf m q) := by
  have below : n < 10 ^ (Nat.toDigits 10 n).length :=
    (Nat.length_toDigits_le_iff (by omega) Nat.length_toDigits_pos).mp (Nat.le_refl _)
  obtain ⟨low, high⟩ := exponent_of_isNear magnitude (pow_length_toDigits_le positive) below near
  unfold ofDecimal ofRatio
  dsimp only
  rw [if_neg (by omega), if_neg (by omega)]
  split
  · next natural =>
    obtain ⟨d, rfl⟩ := Int.eq_ofNat_of_zero_le natural
    refine congrArg _ (ratioBits_of_isNear (Nat.mul_pos positive (Nat.pow_pos (by norm_num)))
      Nat.one_pos magnitude ?_)
    show IsNear m q (((n * 10 ^ d : Nat) : ℚ) / (1 : Nat))
    rw [Nat.cast_one, div_one]
    push_cast
    rw [zpow_natCast] at near
    exact near
  · next below =>
    obtain ⟨d, hd⟩ := Int.eq_ofNat_of_zero_le (show 0 ≤ -e by omega)
    obtain rfl : e = -(d : Int) := by omega
    refine congrArg _ (ratioBits_of_isNear positive (Nat.pow_pos (by norm_num)) magnitude ?_)
    rw [neg_neg, Int.toNat_natCast]
    show IsNear m q ((n : ℚ) / (10 ^ d : Nat))
    push_cast
    rw [zpow_neg, zpow_natCast, ← div_eq_mul_inv] at near
    exact near

end Binary64

/-! ### Texts of decimals -/

namespace Grammar

open Binary64 Cascade.Parser

theorem toList_toString (e : Int) : (toString e).toList =
    (if e < 0 then ['-'] else []) ++ Nat.toDigits 10 e.natAbs := by
  cases e with
  | ofNat n =>
    rw [if_neg (by simp)]
    change (Nat.repr n).toList = _
    rw [Nat.toList_repr]
    rfl
  | negSucc n =>
    rw [if_pos (Int.negSucc_lt_zero n)]
    change ("-" ++ Nat.repr (n + 1)).toList = _
    rw [String.toList_append, Nat.toList_repr]
    rfl

/-- The sign of a written exponent. -/
theorem exponentSign_toString (e : Int) : exponentSign (toString e).toList =
    .accepted (decide (e < 0)) (Nat.toDigits 10 e.natAbs) := by
  rw [toList_toString]
  by_cases below : e < 0
  · rw [if_pos below, decide_eq_true below]
    rfl
  · rw [if_neg below, decide_eq_false below, List.nil_append]
    obtain ⟨c, left, chars, digit⟩ := toDigits_head e.natAbs
    have unsigned : ∀ d : Char, d.isDigit = false → ∀ {α} {f : Unit → α},
        ¬(f <$> char d).Accepts (Nat.toDigits 10 e.natAbs) := by
      intro d other α f
      rw [accepts_map_iff, chars]
      rintro ⟨_, rest, first⟩
      cases char_eq_iff.mp first
      rw [digit] at other
      cases other
    exact choose_cons_eq_iff.mpr (.inr ⟨unsigned '+' (by decide), choose_cons_eq_iff.mpr
      (.inr ⟨unsigned '-' (by decide), rfl⟩)⟩)

/-- A written exponent is read. -/
theorem exponentPart_toString (e : Int) : exponentPart ('e' :: (toString e).toList) =
    .accepted (decide (e < 0), Nat.toDigits 10 e.natAbs) [] := by
  have digits : digits1 (Nat.toDigits 10 e.natAbs) = .accepted (Nat.toDigits 10 e.natAbs) [] :=
    digits1_eq_iff.mpr ⟨toDigits_ne_nil _, fun c member => isDigit_of_mem_toDigits member,
      (List.append_nil _).symm, rfl⟩
  exact bind_eq_iff.mpr ⟨'e', _, satisfy_eq_iff.mpr ⟨rfl, by decide⟩, bind_eq_iff.mpr
    ⟨_, _, exponentSign_toString e, bind_eq_iff.mpr ⟨_, [], digits, rfl⟩⟩⟩

section

variable {whole fraction : List Char}

/-- Digits with a fraction are the float of all their digits. -/
theorem number_fraction (negative : Bool) (nonempty : whole ≠ []) (nonempty' : fraction ≠ [])
    (digital : ∀ c ∈ whole, c.isDigit = true) (digital' : ∀ c ∈ fraction, c.isDigit = true) :
    number negative (whole ++ '.' :: fraction) = .accepted
      (.float (ofDecimal negative (naturalOfDigits (whole ++ fraction)) (-(fraction.length : Int))))
        [] := by
  have last : ¬exponentPart.Accepts [] := by
    rintro ⟨_, _, read⟩
    cases read
  refine number_eq_iff.mpr ⟨⟨whole, some fraction, none⟩, numberText_eq_iff.mpr
    ⟨'.' :: fraction, [], digits1_eq_iff.mpr ⟨nonempty, digital, rfl, undigited_cons (by decide) _⟩,
      optional_eq_some_iff.mpr (bind_eq_iff.mpr ⟨(), fraction, char_eq_iff.mpr rfl,
        digits1_eq_iff.mpr ⟨nonempty', digital', (List.append_nil _).symm, rfl⟩⟩),
      optional_eq_none_iff.mpr ⟨last, rfl⟩⟩, ?_⟩
  show some (Expr.float (ofDecimal negative _ (0 - (fraction.length : Int)))) = _
  rw [Int.zero_sub]
  rfl

/-- The scale of a written exponent. -/
theorem literal?_exponent (negative : Bool) (t : NumberText) (e : Int)
    (exponent : t.exponent = some (decide (e < 0), Nat.toDigits 10 e.natAbs)) :
    t.literal? negative = some (.float (ofDecimal negative
      (naturalOfDigits (t.whole ++ t.fraction.getD [])) (e - (t.fraction.getD []).length))) := by
  obtain ⟨whole, fraction, _⟩ := t
  cases exponent
  have scale : (if decide (e < 0) then -(naturalOfDigits (Nat.toDigits 10 e.natAbs) : Int)
      else naturalOfDigits (Nat.toDigits 10 e.natAbs)) = e := by
    rw [naturalOfDigits_toDigits]
    by_cases below : e < 0
    · rw [if_pos (decide_eq_true below)]
      omega
    · rw [if_neg (by simpa using below)]
      omega
  have read : (NumberText.mk whole fraction
      (some (decide (e < 0), Nat.toDigits 10 e.natAbs))).literal? negative =
        some (.float (ofDecimal negative (naturalOfDigits (whole ++ fraction.getD []))
          ((if decide (e < 0) then -(naturalOfDigits (Nat.toDigits 10 e.natAbs) : Int)
            else naturalOfDigits (Nat.toDigits 10 e.natAbs)) - (fraction.getD []).length))) := by
    cases fraction <;> rfl
  rw [read, scale]

/-- Digits with an exponent are the float of the digits at that exponent. -/
theorem number_integral (negative : Bool) (e : Int) (nonempty : whole ≠ [])
    (digital : ∀ c ∈ whole, c.isDigit = true) :
    number negative (whole ++ 'e' :: (toString e).toList) =
      .accepted (.float (ofDecimal negative (naturalOfDigits whole) e)) [] := by
  have unpointed : ¬fractionPart.Accepts ('e' :: (toString e).toList) := by
    unfold fractionPart
    rw [accepts_bind_iff]
    rintro ⟨_, _, point, -⟩
    cases char_eq_iff.mp point
  refine number_eq_iff.mpr ⟨⟨whole, none, some (decide (e < 0), Nat.toDigits 10 e.natAbs)⟩,
    numberText_eq_iff.mpr ⟨_, _, digits1_eq_iff.mpr
      ⟨nonempty, digital, rfl, undigited_cons (by decide) _⟩, optional_eq_none_iff.mpr
        ⟨unpointed, rfl⟩, optional_eq_some_iff.mpr (exponentPart_toString e)⟩, ?_⟩
  rw [literal?_exponent negative _ e rfl]
  simp

/-- Digits with a fraction and an exponent. -/
theorem number_exponent (negative : Bool) (e : Int) (nonempty : whole ≠ [])
    (nonempty' : fraction ≠ []) (digital : ∀ c ∈ whole, c.isDigit = true)
    (digital' : ∀ c ∈ fraction, c.isDigit = true) :
    number negative (whole ++ '.' :: (fraction ++ 'e' :: (toString e).toList)) = .accepted
      (.float (ofDecimal negative (naturalOfDigits (whole ++ fraction)) (e - fraction.length)))
        [] := by
  refine number_eq_iff.mpr ⟨⟨whole, some fraction, some (decide (e < 0), Nat.toDigits 10 e.natAbs)⟩,
    numberText_eq_iff.mpr ⟨_, _, digits1_eq_iff.mpr
      ⟨nonempty, digital, rfl, undigited_cons (by decide) _⟩, optional_eq_some_iff.mpr
        (bind_eq_iff.mpr ⟨(), _, char_eq_iff.mpr rfl, digits1_eq_iff.mpr
          ⟨nonempty', digital', rfl, undigited_cons (by decide) _⟩⟩), optional_eq_some_iff.mpr
            (exponentPart_toString e)⟩, ?_⟩
  exact literal?_exponent negative _ e rfl

end

/-! ### Layouts -/

/-- The text is read, behind its sign, as a float that is rounded from a rational number. -/
def ReadsAs (text : List Char) (r : ℚ) : Prop :=
  ∃ (n : Nat) (e : Int), 0 < n ∧ (n : ℚ) * 10 ^ e = r ∧
    ∀ negative, number negative text = .accepted (.float (ofDecimal negative n e)) []

section

variable {d : Decimal}

theorem isDigit_of_mem_zeros {k : Nat} {c : Char} (member : c ∈ List.replicate k '0') :
    c.isDigit = true := by
  rw [List.eq_of_mem_replicate member]
  rfl

/-- Digits around a point, with all digits of the decimal or some zeros more, are read as the
decimal. -/
theorem readsAs_fraction (proper : d.IsProper) {whole fraction : List Char} {n : Nat}
    (nonempty : whole ≠ []) (nonempty' : fraction ≠ []) (digital : ∀ c ∈ whole, c.isDigit = true)
    (digital' : ∀ c ∈ fraction, c.isDigit = true)
    (number : naturalOfDigits (whole ++ fraction) = naturalOfDigits d.digits * 10 ^ n)
    (scale : (fraction.length : Int) = d.digits.length - d.point + n) :
    ReadsAs (whole ++ '.' :: fraction) d.value := by
  refine ⟨_, _, ?_, ?_, fun negative =>
    number_fraction negative nonempty nonempty' digital digital'⟩
  · rw [number]
    exact Nat.mul_pos proper.positive (Nat.pow_pos (by norm_num))
  · rw [number, scale, Decimal.value, Nat.cast_mul, Nat.cast_pow, mul_assoc, ← zpow_natCast,
      Nat.cast_ofNat, ← zpow_add₀ (by norm_num)]
    congr 2
    omega

/-- The digits are read from their layout without an exponent. -/
theorem readsAs_positional (proper : d.IsProper) :
    ReadsAs (Notation.positional true d) d.value := by
  have nonempty := proper.nonempty
  have long := List.length_pos_iff.mpr nonempty
  unfold Notation.positional
  split
  · next small =>
    show ReadsAs (['0'] ++ '.' :: _) d.value
    refine readsAs_fraction (n := 0) proper (by simp) (by simp [nonempty]) (by simp) ?_ ?_ ?_
    · intro c member
      rcases List.mem_append.mp member with zero | digit
      · exact isDigit_of_mem_zeros zero
      · exact proper.digital c digit
    · rw [naturalOfDigits_append, naturalOfDigits_append, naturalOfDigits_zeros,
        show naturalOfDigits ['0'] = 0 from rfl]
      simp
    · rw [List.length_append, List.length_replicate]
      omega
  · next large =>
    dsimp only
    split
    · next short =>
      rw [if_pos rfl]
      show ReadsAs (_ ++ '.' :: ['0']) d.value
      refine readsAs_fraction (n := d.point.toNat - d.digits.length + 1) proper
        (by simp [nonempty]) (by simp) ?_ (by simp) ?_ ?_
      · intro c member
        rcases List.mem_append.mp member with digit | zero
        · exact proper.digital c digit
        · exact isDigit_of_mem_zeros zero
      · rw [naturalOfDigits_append, naturalOfDigits_append, naturalOfDigits_zeros,
          show naturalOfDigits ['0'] = 0 from rfl, List.length_replicate, Nat.pow_succ]
        simp [Nat.mul_assoc]
      · rw [List.length_singleton]
        omega
    · next long =>
      refine readsAs_fraction proper (n := 0) ?_ ?_
        (fun c member => proper.digital c (List.mem_of_mem_take member))
        (fun c member => proper.digital c (List.mem_of_mem_drop member)) ?_ ?_
      · rw [← List.length_pos_iff, List.length_take]
        omega
      · rw [← List.length_pos_iff, List.length_drop]
        omega
      · rw [List.take_append_drop]
        simp
      · rw [List.length_drop]
        omega

/-- The digits are read from their layout with an exponent. -/
theorem readsAs_scientific (proper : d.IsProper) :
    ReadsAs (Notation.scientific d) d.value := by
  obtain ⟨digits, point⟩ := d
  have positive := proper.positive
  have digital := proper.digital
  unfold Decimal.value
  cases digits with
  | nil => exact absurd rfl proper.nonempty
  | cons digit rest =>
    obtain ⟨first, later⟩ := List.forall_mem_cons.mp digital
    have single : ∀ c ∈ [digit], c.isDigit = true := List.forall_mem_singleton.mpr first
    cases rest with
    | nil =>
      exact ⟨naturalOfDigits [digit], point - 1, positive, rfl, fun negative =>
        number_integral negative _ (List.cons_ne_nil _ _) single⟩
    | cons second rest =>
      refine ⟨naturalOfDigits (digit :: second :: rest), point - 1 - (second :: rest).length,
        positive, ?_, fun negative => number_exponent negative _ (List.cons_ne_nil digit [])
          (List.cons_ne_nil _ _) single later⟩
      congr 2
      rw [List.length_cons (a := digit)]
      push_cast
      omega

end

/-! ### Floats -/

/-- The text of a sign. -/
theorem toList_sign (negative : Bool) :
    (if negative then "-" else "").toList = if negative then ['-'] else [] := by
  cases negative <;> rfl

theorem isNaN_of_isFinite {x : Float} (finite : isFinite x = true) : isNaN x = false := by
  simp only [isFinite, ne_eq, decide_not, Bool.not_eq_true', decide_eq_false_iff_not] at finite
  simp [isNaN, finite]

/-- Zero is written as a number. -/
theorem readsBack_zero {x : Float} (zero : isZero x = true) : ReadsBack x := by
  have fields : exponentField x = 0 ∧ fractionField x = 0 := by simpa [isZero] using zero
  have finite : isFinite x = true := by simp [isFinite, fields.1]
  have self : signed (isNegative x) 0 = x := by
    have whole := signed_eq_self x
    rw [fields.1, fields.2] at whole
    exact whole
  have written : Notation.literal.write x = (if isNegative x then "-" else "") ++ "0.0" := by
    unfold Notation.write
    rw [isNaN_of_isFinite finite, finite, zero]
    rfl
  refine ⟨['0', '.', '0'], ?_, ?_⟩
  · rw [written, String.toList_append, toList_sign]
    rfl
  · have read : number (isNegative x) (['0'] ++ '.' :: ['0']) = _ :=
      number_fraction (isNegative x) (by simp) (by simp) (by simp) (by simp)
    refine read.trans ?_
    have rounded : ofDecimal (isNegative x) (naturalOfDigits (['0'] ++ ['0'])) (-1) = x := by
      unfold ofDecimal
      rw [show naturalOfDigits (['0'] ++ ['0']) = 0 from rfl]
      dsimp only
      rw [if_pos (.inl rfl), self]
    exact congrArg (fun x => Parsed.accepted (Expr.float x) []) rounded

/-- A finite float reads back. -/
theorem readsBack_of_isFinite {x : Float} (finite : isFinite x = true) : ReadsBack x := by
  cases zero : isZero x with
  | true => exact readsBack_zero zero
  | false =>
    obtain ⟨m, q, decoded, magnitude, self⟩ := exists_magnitude finite zero
    obtain ⟨near, proper⟩ := Decimal.isNear_shortest .up decoded magnitude
    have reads : ∀ text, ReadsAs text (Decimal.shortest .up x).value →
        number (isNegative x) text = .accepted (.float x) [] := by
      rintro text ⟨n, e, positive, same, read⟩
      rw [← same] at near
      rw [read, ofDecimal_of_isNear _ magnitude positive near, self]
    have written : ∃ exponential : Bool, Notation.literal.write x =
        (if isNegative x then "-" else "") ++ String.ofList (if exponential then
          Notation.scientific (Decimal.shortest .up x)
            else Notation.positional true (Decimal.shortest .up x)) := by
      unfold Notation.write
      rw [isNaN_of_isFinite finite, finite, zero]
      exact ⟨_, rfl⟩
    obtain ⟨exponential, written⟩ := written
    have layout : ReadsAs (if exponential then Notation.scientific (Decimal.shortest .up x)
        else Notation.positional true (Decimal.shortest .up x)) (Decimal.shortest .up x).value := by
      split
      · exact readsAs_scientific proper
      · exact readsAs_positional proper
    refine ⟨_, ?_, reads _ layout⟩
    rw [written, String.toList_append, toList_sign, String.toList_ofList]

/-- Exactly the finite floats have a text that is read back: infinities and NaN are written as
words. -/
theorem readsBack_iff {x : Float} : ReadsBack x ↔ isFinite x = true := by
  refine ⟨fun readsBack => ?_, readsBack_of_isFinite⟩
  by_contra infinite
  rw [Bool.not_eq_true] at infinite
  obtain ⟨text, written, read⟩ := readsBack
  by_cases word : isNaN x = true
  · have name : Notation.literal.write x = "NaN" := by
      unfold Notation.write
      rw [word]
      rfl
    rw [name] at written
    split at written
    · cases written
    · rw [List.nil_append] at written
      subst written
      cases read
  · rw [Bool.not_eq_true] at word
    have name : Notation.literal.write x = (if isNegative x then "-" else "") ++ "inf" := by
      unfold Notation.write
      rw [word, infinite]
      rfl
    rw [name, String.toList_append, toList_sign, List.append_cancel_left_eq] at written
    subst written
    cases read

end Grammar

end Cascade
