/-!
# Tables of code points by runs

A property of characters is constant over long stretches of code points, so its table lists
only where a stretch begins. This module holds the two shapes such a table takes – a
**partition** of all code points into labelled runs, and a **set** of code points given by
closed intervals – the compact text both are written in, and the binary search that reads
them.
-/

namespace Highlight.Unicode

/-- The value of a lower-case hexadecimal digit. -/
def hexValue? (c : Char) : Option Nat :=
  if '0' ≤ c ∧ c ≤ '9' then some (c.toNat - '0'.toNat)
  else if 'a' ≤ c ∧ c ≤ 'f' then some (c.toNat - 'a'.toNat + 10)
  else none

/-- The number written by the lower-case hexadecimal digits at the front of `cs`. Other
characters are passed over. -/
def hexNumber (cs : List Char) : Nat :=
  cs.foldl (fun n c => match hexValue? c with
    | some d => 16 * n + d
    | none => n) 0

/-- The least index `i` with `lo < i` and `hi ≤ i` or `key i > n`, less one: the last index
from `lo` on whose key is at most `n`, provided the keys grow and the key of `lo` is at most
`n`. -/
def lastAtMost (key : Nat → Nat) (n lo hi : Nat) : Nat :=
  if lo + 1 < hi then
    let middle := (lo + hi) / 2
    if key middle ≤ n then lastAtMost key n middle hi else lastAtMost key n lo middle
  else lo
termination_by hi - lo

/-- **A partition of the code points into labelled runs.** Each entry is the first code point
of a run and the label of all code points from there to the next entry. -/
structure Partition (α : Type) where
  /-- The runs, by growing first code point. -/
  runs : Array (Nat × α)

namespace Partition

/-- The label of the run that holds code point `n`. -/
def label? {α : Type} (p : Partition α) (n : Nat) : Option α :=
  let first := fun i => (p.runs[i]?).elim 0 (·.1)
  (p.runs[lastAtMost first n 0 p.runs.size]?).map (·.2)

end Partition

/-- **A set of code points** as closed intervals. -/
structure Intervals where
  /-- First and last code point of each interval, growing and disjoint. -/
  bounds : Array (Nat × Nat)

namespace Intervals

/-- Whether code point `n` is in the set. -/
def contains (s : Intervals) (n : Nat) : Bool :=
  let first := fun i => (s.bounds[i]?).elim 0 (·.1)
  match s.bounds[lastAtMost first n 0 s.bounds.size]? with
  | some (lo, hi) => lo ≤ n && n ≤ hi
  | none => false

/-- The set written as intervals `first-last`, or single code points, between blanks
or line ends. -/
def ofText (text : String) : Intervals where
  bounds :=
    let pieces := (text.split (fun c => c == ' ' || c == '\n')).toList.filter (!·.isEmpty)
    pieces.foldl (fun acc piece =>
      let cs := piece.toString.toList
      let lo := cs.takeWhile (· != '-')
      let hi := (cs.dropWhile (· != '-')).drop 1
      acc.push (hexNumber lo, if hi.isEmpty then hexNumber lo else hexNumber hi)) #[]

end Intervals

end Highlight.Unicode
