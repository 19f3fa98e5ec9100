/-!
# Natural numbers of one machine word

Indices written in grammars – the number of a capture group in a key, in a reference – count
only if they fit a word of 64 bits. A plus sign and leading zeros are allowed.
-/

namespace Highlight.Text

/-- One more than the greatest index. -/
def indexLimit : Nat := 1 <<< 64

/-- The number that decimal digits write, if there is at least one character and all are
digits. -/
def decimal? (cs : List Char) : Option Nat :=
  if !cs.isEmpty && cs.all Char.isDigit then
    some (cs.foldl (fun n c => 10 * n + (c.toNat - '0'.toNat)) 0)
  else none

/-- **The index a text writes**, if it writes one below `indexLimit`. -/
def index? (cs : List Char) : Option Nat :=
  let digits := match cs with
    | '+' :: rest => rest
    | _ => cs
  (decimal? digits).filter (· < indexLimit)

end Highlight.Text
