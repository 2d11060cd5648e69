import Cascade.Text.WidthTable

/-!
# Display width

The number of columns that a text fills on a fixed-width display.

## Main definitions

* `DisplayWidth.ofChar`, `DisplayWidth.ofText`.
-/

namespace Cascade.DisplayWidth

/-- A code point lies in one of the ranges. -/
def inRanges (ranges : Array (Nat × Nat)) (n : Nat) : Bool :=
  ranges.any fun range => range.1 ≤ n && n ≤ range.2

/-- The columns of a character. -/
def ofChar (c : Char) : Nat :=
  let n := c.toNat
  if n < 0x300 then if n == 0xAD then 0 else 1
  else if inRanges zeroWidthRanges n then 0
  else if inRanges wideRanges n then 2
  else 1

/-- The columns of a text. -/
def ofText (s : String) : Nat := s.toList.foldr (fun c n => ofChar c + n) 0

end Cascade.DisplayWidth
