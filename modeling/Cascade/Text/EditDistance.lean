/-!
# Edit distance and suggestions

The distance of two words is the least number of insertions, deletions, substitutions and
transpositions of neighbours that lead from one to the other, where letters may still be inserted
between transposed ones. Names within distance two of a misspelled one are suggested for it.

## Main definitions

* `EditDistance.distance`: the distance, computed row by row over the prefixes of the first word.
* `suggestions`: the closest names, at most three.
-/

namespace Cascade

namespace EditDistance

/-- The last position below `bound` that holds `c`. -/
def lastBefore (word : List Char) (bound : Nat) (c : Char) : Option Nat :=
  (List.range bound).reverse.find? fun i => word[i]? == some c

/-- The distance of two prefixes, read from the rows computed so far. -/
def cell (rows : List (List Nat)) (i j : Nat) : Nat :=
  ((rows[i]?).bind (·[j]?)).getD 0

/-- The distance of the prefixes of `i + 1` and `j + 1` letters. `row` holds the distances of the
longer first prefix to the shorter second ones, `rows` those of all shorter first prefixes. -/
def step (a b : List Char) (rows : List (List Nat)) (row : List Nat) (i j : Nat) : Nat :=
  let inserted := row[j]?.getD 0 + 1
  let deleted := cell rows i (j + 1) + 1
  let replaced := cell rows i j + if a[i]? == b[j]? then 0 else 1
  let least := min inserted (min deleted replaced)
  match b[j]?.bind (lastBefore a i), a[i]?.bind (lastBefore b j) with
  | some k, some l => min least (cell rows k l + (i - k - 1) + 1 + (j - l - 1))
  | _, _ => least

/-- The row of the prefix of `i + 1` letters of the first word. -/
def nextRow (a b : List Char) (rows : List (List Nat)) (i : Nat) : List Nat :=
  (List.range b.length).foldl (fun row j => row ++ [step a b rows row i j]) [i + 1]

/-- The edit distance of two words. -/
def distance (a b : List Char) : Nat :=
  let rows := (List.range a.length).foldl (fun rows i => rows ++ [nextRow a b rows i])
    [List.range (b.length + 1)]
  cell rows a.length b.length

end EditDistance

/-- Closer names come first, equally close ones in their own order. -/
def closer (x y : Nat × String) : Bool :=
  x.1 < y.1 || (x.1 == y.1 && x.2 ≤ y.2)

/-- At most three candidates within distance two of a name, the closest first. The name itself is
never suggested, and no candidate twice. -/
def suggestions (name : String) (candidates : List String) : List String :=
  let scored := (candidates.filter (· ≠ name)).map fun candidate =>
    (EditDistance.distance name.toList candidate.toList, candidate)
  let ranked := ((scored.filter (·.1 ≤ 2)).mergeSort closer).eraseDups
  (ranked.take 3).map Prod.snd

end Cascade
