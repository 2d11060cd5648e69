import Cascade.Number.Binary64

/-!
# Shortest decimals

The shortest decimal of a binary64 number is the one with the fewest digits among those that read
back as the number, and the nearest to it of those. The reals that read back as `x` form an interval
around it, whose ends belong to it exactly if the significand is even. The search tries one digit,
then two, and so on: if a point of a decimal grid lies in the interval, so does one of the two grid
points around `x`.

How the digits are laid out (where the exponent form starts, whether `.0` is kept) is one record,
`Notation`, per format that writes numbers.

## Main definitions

* `Decimal.shortest`: digits and position of the point.
* `Notation`, `Notation.write`: the text of a number in a format.
-/

namespace Cascade

/-- A positive decimal `0.d₁d₂… · 10^point`. -/
structure Decimal where
  digits : List Char
  point : Int
deriving Repr, DecidableEq

/-- Which of two equally near decimals is taken. -/
inductive TieRule where
  | up
  | even
deriving Repr, DecidableEq

namespace Decimal

open Binary64

/-- The reals that read back as a magnitude, as `[low / den, high / den]` around `value / den`. -/
structure Interval where
  low : Nat
  value : Nat
  high : Nat
  den : Nat
  closed : Bool
deriving Repr

/-- The reals nearer to `m · 2^q` than to its neighbours. Just below a power of two the neighbour is
half as far away. -/
def interval (x : Float) : Interval :=
  let ⟨m, q⟩ := decode x
  let below := if m = Nat.pow 2 52 ∧ q > -1074 then 1 else 2
  let scale := Nat.pow 2 (max (q - 2) 0).toNat
  let den := Nat.pow 2 (max (2 - q) 0).toNat
  ⟨(4 * m - below) * scale, 4 * m * scale, (4 * m + 2) * scale, den, m % 2 = 0⟩

/-- The grid point `n · unitNum / unitDen` reads back as the value. -/
def Interval.contains (i : Interval) (n unitNum unitDen : Nat) : Bool :=
  let point := n * unitNum * i.den
  let low := i.low * unitDen
  let high := i.high * unitDen
  if i.closed then low ≤ point && point ≤ high else low < point && point < high

/-- `10^e` as a ratio. -/
def power (e : Int) : Nat × Nat :=
  if e ≥ 0 then (Nat.pow 10 e.toNat, 1) else (1, Nat.pow 10 (-e).toNat)

/-- The exponent `p` with `10^(p-1) ≤ num / den < 10^p`, searched downwards from a bound. -/
def position (num den : Nat) : Nat → Int → Int
  | 0, p => p
  | fuel + 1, p =>
    let (unitNum, unitDen) := power (p - 1)
    if unitNum * den ≤ num * unitDen then p else position num den fuel (p - 1)

/-- The grid point of `places` digits that reads back as the value, if there is one. -/
def onGrid (tie : TieRule) (i : Interval) (point : Int) (places : Nat) : Option Nat :=
  let (unitNum, unitDen) := power (point - places)
  let num := i.value * unitDen
  let den := i.den * unitNum
  let lower := num / den
  let upper := lower + 1
  match i.contains lower unitNum unitDen, i.contains upper unitNum unitDen with
  | false, false => none
  | true, false => some lower
  | false, true => some upper
  | true, true =>
    let twice := 2 * (num % den)
    if twice < den then some lower
    else if den < twice then some upper
    else match tie with
      | .up => some upper
      | .even => some (if lower % 2 = 0 then lower else upper)

/-- The first grid, from `places` digits on, that has a point of the interval. -/
def search (tie : TieRule) (i : Interval) (point : Int) : Nat → Nat → Nat × Nat
  | 0, places => (0, places)
  | fuel + 1, places =>
    match onGrid tie i point places with
    | some n => (n, places)
    | none => search tie i point fuel (places + 1)

/-- The shortest decimal of a positive finite number. -/
def shortest (tie : TieRule) (x : Float) : Decimal :=
  let i := interval x
  -- Two binary orders are less than one decimal order, so the bound is never passed.
  let ⟨m, q⟩ := decode x
  let bound := ((m.log2 : Int) + q + 1) * 30103 / 100000 + 2
  let point := position i.value i.den 8 bound
  let (n, places) := search tie i point 20 1
  let digits := Nat.toDigits 10 n
  -- A grid point rounded up to a power of ten has one digit more.
  let point := point + ((digits.length : Int) - (places : Int))
  let trimmed := (digits.reverse.dropWhile (· == '0')).reverse
  ⟨trimmed, point⟩

end Decimal

/-- How a format writes numbers: the largest and least position of the point that is written
without an exponent, whether an integral number keeps `.0`, and which way ties go. -/
structure Notation where
  tie : TieRule
  lowest : Option Int
  highest : Option Int
  keepsFraction : Bool
deriving Repr

namespace Notation

/-- Digits with a point and no exponent. -/
def positional (keepsFraction : Bool) (d : Decimal) : List Char :=
  if d.point ≤ 0 then
    '0' :: '.' :: (List.replicate (-d.point).toNat '0' ++ d.digits)
  else
    let whole := d.point.toNat
    if d.digits.length ≤ whole then
      d.digits ++ List.replicate (whole - d.digits.length) '0' ++
        (if keepsFraction then ['.', '0'] else [])
    else d.digits.take whole ++ '.' :: d.digits.drop whole

/-- One digit before the point, and an exponent. -/
def scientific (d : Decimal) : List Char :=
  let exponent := (toString (d.point - 1)).toList
  match d.digits with
  | [] => []
  | [digit] => digit :: 'e' :: exponent
  | digit :: rest => digit :: '.' :: (rest ++ 'e' :: exponent)

/-- The text of a number. -/
def write (format : Notation) (x : Float) : String :=
  if Binary64.isNaN x then "NaN"
  else
    let sign := if Binary64.isNegative x then "-" else ""
    if !Binary64.isFinite x then sign ++ "inf"
    else if Binary64.isZero x then sign ++ if format.keepsFraction then "0.0" else "0"
    else
      let d := Decimal.shortest format.tie x
      let small := format.lowest.any fun lowest => d.point < lowest
      let large := format.highest.any fun highest => highest < d.point
      sign ++
        String.ofList
          (if small || large then scientific d else positional format.keepsFraction d)

/-- Numbers joined to text: no exponent, and no fraction of an integral number. -/
def plain : Notation := ⟨.up, none, none, false⟩

/-- Numbers of expressions: positional from `1e-4` up to `1e16`, always with a fraction. -/
def literal : Notation := ⟨.up, some (-3), some 16, true⟩

/-- Numbers of documents: positional from `1e-5` up to `1e16`, always with a fraction. -/
def document : Notation := ⟨.even, some (-4), some 16, true⟩

end Notation

end Cascade
