/-!
# Network addresses

Strings that are IPv4 or IPv6 addresses take part in arithmetic: a number may be added to an address
or subtracted from it, and two addresses of one family have a distance. An address is its number
together with its family, and its number always lies in the family's range, so shifting is a range
check and nothing else.

The text form of an IPv6 address abbreviates its first longest run of two or more zero groups by
`::`; addresses that embed an IPv4 address end in dotted form.

## Main definitions

* `Address.parse?`, `Address.render`: reading and writing.
* `Address.shift?`, `Address.distance?`: arithmetic.
-/

namespace Cascade

/-- The two families of addresses. -/
inductive AddressFamily where
  | v4
  | v6
deriving Repr, DecidableEq

/-- How many addresses the family has. -/
def AddressFamily.size : AddressFamily → Nat
  | .v4 => 0x100000000
  | .v6 => 0x100000000000000000000000000000000

/-- A number in the range of its family. -/
structure Address where
  family : AddressFamily
  number : Nat
  number_lt : number < family.size

namespace Address

/-- The address of a number, which must lie in the family's range. -/
def ofNumber? (family : AddressFamily) (number : Nat) : Option Address :=
  if h : number < family.size then some ⟨family, number, h⟩ else none

/-! ### Reading -/

/-- The value of a digit, if it is one of the radix. -/
def digit? (radix : Nat) (c : Char) : Option Nat :=
  let value :=
    if c.isDigit then some (c.toNat - '0'.toNat)
    else if 'a' ≤ c ∧ c ≤ 'f' then some (c.toNat - 'a'.toNat + 10)
    else if 'A' ≤ c ∧ c ≤ 'F' then some (c.toNat - 'A'.toNat + 10)
    else none
  value.filter (· < radix)

/-- A number of at most `width` digits. -/
def readNumber (radix width : Nat) (leadingZeros : Bool) (cs : List Char) :
    Option (Nat × List Char) :=
  let digits := cs.takeWhile fun c => (digit? radix c).isSome
  let padded := digits.length > 1 && digits.head? == some '0'
  if digits.isEmpty || digits.length > width || (padded && !leadingZeros) then none
  else some (digits.foldl (fun n c => n * radix + (digit? radix c).getD 0) 0, cs.drop digits.length)

/-- A given character. -/
def readChar (c : Char) : List Char → Option (List Char)
  | [] => none
  | d :: rest => if d = c then some rest else none

/-- A separator in front of every part but the first. -/
def readSeparator (c : Char) (first : Bool) (cs : List Char) : Option (List Char) :=
  if first then some cs else readChar c cs

/-- The remaining octets of a dotted address. -/
def readOctets : Nat → Bool → List Char → Option (Nat × List Char)
  | 0, _, cs => some (0, cs)
  | count + 1, first, cs => do
    let cs ← readSeparator '.' first cs
    let (octet, cs) ← readNumber 10 3 false cs
    if octet > 255 then none
    else
      let (rest, cs) ← readOctets count false cs
      return (octet * Nat.pow 256 count + rest, cs)

/-- An address in dotted form. -/
def readDotted (cs : List Char) : Option (Nat × List Char) :=
  readOctets 4 true cs

/-- Up to `limit` groups of sixteen bits, and whether they end in dotted form. -/
def readGroups : Nat → Bool → List Char → List Nat × Bool × List Char
  | 0, _, cs => ([], false, cs)
  | limit + 1, first, cs =>
    let dotted := if limit = 0 then none else readSeparator ':' first cs >>= readDotted
    match dotted with
    | some (number, rest) => ([number / 0x10000, number % 0x10000], true, rest)
    | none =>
      match readSeparator ':' first cs >>= readNumber 16 4 true with
      | some (group, rest) =>
        let (groups, isDotted, rest) := readGroups limit false rest
        (group :: groups, isDotted, rest)
      | none => ([], false, cs)

/-- The number of eight groups. -/
def ofGroups (groups : List Nat) : Nat :=
  groups.foldl (fun n group => n * 0x10000 + group) 0

/-- An address in groups. -/
def readGrouped (cs : List Char) : Option (Nat × List Char) :=
  let (head, isDotted, rest) := readGroups 8 true cs
  if head.length = 8 then some (ofGroups head, rest)
  else if isDotted then none
  else do
    let rest ← readChar ':' rest
    let rest ← readChar ':' rest
    -- The abbreviation stands for at least one group.
    let (tail, _, rest) := readGroups (7 - head.length) true rest
    return (ofGroups (head ++ List.replicate (8 - head.length - tail.length) 0 ++ tail), rest)

/-- The address written in a text. -/
def parse? (text : String) : Option Address :=
  let cs := text.toList
  match readDotted cs with
  | some (number, []) => ofNumber? .v4 number
  | _ =>
    match readGrouped cs with
    | some (number, []) => ofNumber? .v6 number
    | _ => none

/-! ### Writing -/

/-- The dotted form of a 32-bit number. -/
def dotted (number : Nat) : String :=
  ".".intercalate ([3, 2, 1, 0].map fun i => toString (number / Nat.pow 256 i % 256))

/-- The eight groups of a 128-bit number. -/
def groups (number : Nat) : List Nat :=
  [7, 6, 5, 4, 3, 2, 1, 0].map fun i => number / Nat.pow 0x10000 i % 0x10000

/-- Groups in hexadecimal, separated by colons. -/
def joinGroups (gs : List Nat) : String :=
  ":".intercalate (gs.map fun g => String.ofList (Nat.toDigits 16 g))

/-- Start and length of the first longest run of zero groups. `run` is the run that ends where the
list starts, `best` the longest before it. -/
def longestRun (position : Nat) (run best : Nat × Nat) : List Nat → Nat × Nat
  | [] => best
  | g :: rest =>
    if g = 0 then
      let run := if run.2 = 0 then (position, 1) else (run.1, run.2 + 1)
      longestRun (position + 1) run (if run.2 > best.2 then run else best) rest
    else longestRun (position + 1) (0, 0) best rest

/-- The text of a 128-bit number. -/
def grouped (number : Nat) : String :=
  if number / 0x100000000 = 0xFFFF then "::ffff:" ++ dotted (number % 0x100000000)
  else
    let gs := groups number
    let (start, length) := longestRun 0 (0, 0) (0, 0) gs
    if length > 1 then joinGroups (gs.take start) ++ "::" ++ joinGroups (gs.drop (start + length))
    else joinGroups gs

/-- The text of an address. -/
def render (a : Address) : String :=
  match a.family with
  | .v4 => dotted a.number
  | .v6 => grouped a.number

/-! ### Arithmetic -/

/-- The address `delta` further on, if the family has it. -/
def shift? (a : Address) (delta : Int) : Option Address :=
  let shifted := (a.number : Int) + delta
  if shifted < 0 then none else ofNumber? a.family shifted.toNat

/-- How far `a` lies after `b`, if they are of one family and the distance has a magnitude of 63
bits. -/
def distance? (a b : Address) : Option Int :=
  if a.family = b.family then
    let distance := (a.number : Int) - (b.number : Int)
    if distance.natAbs < 0x8000000000000000 then some distance else none
  else none

end Address

end Cascade
