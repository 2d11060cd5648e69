/-!
# Binary64 numbers as integers times powers of two

A finite binary64 number is `m · 2^q` with a natural `m < 2^53` and `-1074 ≤ q ≤ 971`. This module
reads that form off the bits (`Binary64.decode`), rounds an arbitrary positive ratio to the nearest
number of the format, ties going to the even neighbour (`Binary64.ofRatio`), and builds on both the
conversions that the rest of the library needs: integers, decimal texts and the remainder of a
division, all exact up to that one rounding.

## Main definitions

* `Binary64.decode`: significand and exponent of the magnitude.
* `Binary64.ofRatio`: the nearest binary64 number of a ratio of naturals.
* `Binary64.ofInt`, `Binary64.ofDecimal`, `Binary64.remainder`.
-/

namespace Cascade.Binary64

/-- The magnitude of a finite number, `significand · 2^exponent`. -/
structure Magnitude where
  significand : Nat
  exponent : Int
deriving Repr, DecidableEq

/-- The sign bit is set. -/
def isNegative (x : Float) : Bool :=
  x.toBits.toNat ≥ Nat.pow 2 63

/-- The biased exponent field, `2047` for infinities and NaN. -/
def exponentField (x : Float) : Nat :=
  x.toBits.toNat / Nat.pow 2 52 % Nat.pow 2 11

/-- The fraction field. -/
def fractionField (x : Float) : Nat :=
  x.toBits.toNat % Nat.pow 2 52

/-- Neither an infinity nor NaN. -/
def isFinite (x : Float) : Bool :=
  exponentField x ≠ 2047

/-- Not a number. -/
def isNaN (x : Float) : Bool :=
  exponentField x = 2047 && fractionField x ≠ 0

/-- One of the two zeros. -/
def isZero (x : Float) : Bool :=
  exponentField x = 0 && fractionField x = 0

/-- The magnitude of a finite number. -/
def decode (x : Float) : Magnitude :=
  if exponentField x = 0 then ⟨fractionField x, -1074⟩
  else ⟨fractionField x + Nat.pow 2 52, (exponentField x : Int) - 1075⟩

/-- The number with the given sign and the given bits of its magnitude. -/
def signed (negative : Bool) (magnitude : Nat) : Float :=
  Float.ofBits (UInt64.ofNat (magnitude + if negative then Nat.pow 2 63 else 0))

/-- The bits of positive infinity. -/
def infinityBits : Nat := 2047 * Nat.pow 2 52

/-- Positive or negative infinity. -/
def infinity (negative : Bool) : Float := signed negative infinityBits

/-- Not a number. -/
def nan : Float := Float.ofBits 0x7FF8000000000000

/-- The nearest integer to `num / den`, a tie going to the even one. -/
def divRound (num den : Nat) : Nat :=
  let quotient := num / den
  let rest := num % den
  if 2 * rest > den ∨ (2 * rest = den ∧ quotient % 2 = 1) then quotient + 1 else quotient

/-- `num / den` scaled by `2^(-q)`, as a ratio. -/
def scaled (num den : Nat) (q : Int) : Nat × Nat :=
  if q ≥ 0 then (num, den * Nat.pow 2 q.toNat) else (num * Nat.pow 2 (-q).toNat, den)

/-- The bits of the magnitude nearest to the positive ratio `num / den`, a tie going to the even
neighbour; magnitudes past the largest finite one are infinite. -/
def ratioBits (num den : Nat) : Nat :=
  if num = 0 then 0
  else
    -- `2^(e-1) < num / den < 2^(e+1)`, so one of two exponents gives a significand of 53 bits.
    let e : Int := (num.log2 : Int) - (den.log2 : Int)
    let high := scaled num den (e - 52)
    let q := max (-1074) (if high.1 / high.2 ≥ Nat.pow 2 52 then e - 52 else e - 53)
    let ratio := scaled num den q
    let m := divRound ratio.1 ratio.2
    if q > 971 then infinityBits
    -- A significand rounded up to `2^53` carries into the exponent by itself.
    else min infinityBits (if m < Nat.pow 2 52 then m else (q + 1074).toNat * Nat.pow 2 52 + m)

/-- The number nearest to the ratio `num / den` under the given sign. -/
def ofRatio (negative : Bool) (num den : Nat) : Float :=
  signed negative (ratioBits num den)

/-- The number nearest to an integer. -/
def ofInt (n : Int) : Float :=
  ofRatio (n < 0) n.natAbs 1

/-- The number nearest to `digits · 10^exponent`.

Exponents that lie outside the format whatever the digits are never multiplied out. -/
def ofDecimal (negative : Bool) (digits : Nat) (exponent : Int) : Float :=
  let width : Int := (Nat.toDigits 10 digits).length
  if digits = 0 ∨ exponent + width < -400 then signed negative 0
  else if exponent + width > 400 then infinity negative
  else if exponent ≥ 0 then ofRatio negative (digits * Nat.pow 10 exponent.toNat) 1
  else ofRatio negative digits (Nat.pow 10 (-exponent).toNat)

/-- The exact remainder of a division that truncates; it has the sign of the dividend. -/
def remainder (x y : Float) : Float :=
  if !isFinite x || isNaN y || isZero y then nan
  else if !isFinite y then x
  else
    let a := decode x
    let b := decode y
    let q := min a.exponent b.exponent
    let dividend := a.significand * Nat.pow 2 (a.exponent - q).toNat
    let divisor := b.significand * Nat.pow 2 (b.exponent - q).toNat
    let ratio := scaled (dividend % divisor) 1 (-q)
    ofRatio (isNegative x) ratio.1 ratio.2

end Cascade.Binary64
