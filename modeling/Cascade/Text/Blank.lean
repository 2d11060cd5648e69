/-!
# Blank characters

Two classes of blanks appear in documents. `isBlank` is the white space of the character
standard and decides what `trim` removes; `isSpacing` holds the four blanks that may separate
the parts of an expression.

## Main definitions

* `Blank.isBlank`, `Blank.isSpacing`.
* `Blank.trim`, `Blank.trimStart`, `Blank.trimEnd`: text without the blanks at its ends.
-/

namespace Cascade.Blank

/-- White space of the character standard. -/
def isBlank (c : Char) : Bool :=
  let n := c.toNat
  (9 ≤ n && n ≤ 13) || n == 0x20 || n == 0x85 || n == 0xA0 || n == 0x1680 ||
    (0x2000 ≤ n && n ≤ 0x200A) || n == 0x2028 || n == 0x2029 || n == 0x202F || n == 0x205F ||
    n == 0x3000

/-- Space, tab, carriage return and line feed. -/
def isSpacing (c : Char) : Bool :=
  c == ' ' || c == '\t' || c == '\r' || c == '\n'

/-- Characters without the leading ones of a class. -/
def dropLeading (p : Char → Bool) (cs : List Char) : List Char :=
  cs.dropWhile p

/-- Characters without the trailing ones of a class. -/
def dropTrailing (p : Char → Bool) (cs : List Char) : List Char :=
  (cs.reverse.dropWhile p).reverse

/-- Characters without those of a class at either end. -/
def strip (p : Char → Bool) (cs : List Char) : List Char :=
  dropTrailing p (dropLeading p cs)

/-- Text without leading blanks. -/
def trimStart (s : String) : String := String.ofList (dropLeading isBlank s.toList)

/-- Text without trailing blanks. -/
def trimEnd (s : String) : String := String.ofList (dropTrailing isBlank s.toList)

/-- Text without blanks at either end. -/
def trim (s : String) : String := String.ofList (strip isBlank s.toList)

end Cascade.Blank
