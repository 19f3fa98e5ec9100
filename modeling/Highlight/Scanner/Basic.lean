import Highlight.Text.Span

/-!
# Scanners and engines

A **scanner** is a list of patterns that are searched for together: of all matches that begin at
or after a position it finds the leftmost, and of several there the one whose pattern comes
first. An **engine** makes scanners.

Neither need be a pure function. An engine may keep a state of type `σ`, which every call is
given and gives back, so that engines can count, journal or replay what is asked of them. What
is proved of the reader of lines for all engines thus also holds of those.
-/

namespace Highlight

/-- **What a search finds**: the number of the pattern, and the stretches of its groups. -/
structure Found where
  /-- The number of the pattern in its list, from 0. -/
  index : Nat
  /-- The stretches. -/
  captures : Captures
  deriving DecidableEq, Repr

/-- **A scanner.** -/
structure Scanner (σ : Type) where
  /-- The number of its patterns. -/
  size : Nat
  /-- Searches a text from a position on. -/
  find : (text : String) → (start : Nat) → StateM σ (Option Found)

/-- **The refusal of a list of patterns.** -/
structure Refusal where
  /-- The patterns. -/
  patterns : List String
  /-- What is wrong with them. -/
  reason : String
  deriving DecidableEq, Repr

namespace Refusal

/-- The message of a refusal. -/
def message (r : Refusal) : String :=
  "failed to compile a scanner of " ++ toString r.patterns.length ++ " pattern(s): " ++ r.reason

end Refusal

/-- **An engine.** -/
structure Engine (σ : Type) where
  /-- Makes a scanner, or says what is wrong with a pattern. -/
  compile : (patterns : List String) → StateM σ (Except String (Scanner σ))

end Highlight
