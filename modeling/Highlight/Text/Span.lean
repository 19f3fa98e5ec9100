import Highlight.Text.Bytes

/-!
# Stretches of a line

What a match reports: which stretch of the line the whole of it takes, and which stretches its
groups take.
-/

namespace Highlight

/-- A stretch of a line, from a position to another. -/
structure Span where
  /-- The first position. -/
  start : Nat
  /-- The position after the last byte. -/
  stop : Nat
  deriving DecidableEq, Repr

/-- **The stretches of the groups of a match**; the first is the whole match. A group may have
taken no part. -/
abbrev Captures := List (Option Span)

namespace Captures

/-- The stretch of the whole match. -/
def whole? (captures : Captures) : Option Span := captures.head?.join

/-- The text of a group. A group that took no part, or whose stretch is not one of the line, has
the empty text; a group that does not exist has none. -/
def text? (line : String) (captures : Captures) (group : Nat) : Option String :=
  captures[group]?.map (fun span =>
    (span.bind (fun s => Text.slice? line s.start s.stop)).getD "")

end Captures

end Highlight
