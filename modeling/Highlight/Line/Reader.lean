import Highlight.Attribution
import Highlight.Grammar.Ruleset
import Highlight.Grammar.ScannerCache
import Highlight.Line.Segments
import Highlight.Line.State

/-!
# Reading a line: what it needs and what it changes

Reading a line needs the compiled grammar, what scopes mean, and an engine. It changes the cache
of scanners, the state of the engine, and the segments cut so far. It fails where the engine
refuses a pattern, and where what the engine reports makes no sense.

There are grammars with which reading a line goes in circles, and so there are limits to how long
reading goes on. They are given to it as a parameter. None of them is large enough for all lines
that come to an end, so what is said of lines is said of all limits.
-/

namespace Highlight

open Grammar

variable {σ : Type}

/-- **How long reading goes on** before it gives up. -/
structure Limits where
  /-- How many texts of groups may be read on inside each other, as many as there is memory for. -/
  levels : Nat := 1 <<< 12
  /-- How many matches are followed that an engine reports to lie outside of the text. Only an
  engine that does not look at the text reports any. -/
  strays : Nat := 1 <<< 20
  deriving DecidableEq, Repr

/-- **What reading needs.** -/
structure LineReader (σ : Type) where
  /-- The compiled grammar. -/
  rules : Ruleset
  /-- What scopes mean. -/
  attribution : Attribution
  /-- The engine. -/
  engine : Engine σ
  /-- How long reading goes on. -/
  limits : Limits := {}

/-- The same with other limits. -/
def LineReader.withLimits (r : LineReader σ) (limits : Limits) : LineReader σ :=
  { r with limits := limits }

/-- **Why a line cannot be read.** -/
inductive LineError where
  /-- The engine refused some patterns. -/
  | refused (refusal : Refusal)
  /-- The text of a group was to be read on, but it ends inside a character or after the text. -/
  | outside (position : Nat)
  /-- More matches were found than are followed. -/
  | unending
  /-- The texts of groups were to be read on inside each other more deeply than is allowed. -/
  | depth
  deriving DecidableEq, Repr

/-- **What reading changes.** -/
structure Reading (σ : Type) where
  /-- The cache and the state of the engine. -/
  searching : Searching σ
  /-- The segments cut so far. -/
  segments : Segments

/-- The steps of reading a line. -/
abbrev Read (σ : Type) := EStateM LineError (Reading σ)

namespace Read

/-- A step that searches. -/
def search {α : Type} (x : Search σ α) : Read σ α := fun r =>
  match x.run r.searching with
  | .ok a s => .ok a { r with searching := s }
  | .error refusal s => .error (.refused refusal) { r with searching := s }

/-- Cuts the line up to a position. -/
def produce (scopes : AttributedPath) (stop : Nat) : Read σ Unit :=
  modify (fun r => { r with segments := r.segments.produce scopes stop })

end Read

/-- A place in a document where reading stands. -/
structure Cursor where
  /-- The frames. -/
  state : LineState
  /-- The position. -/
  position : Nat
  /-- The position at which `\G` holds. -/
  anchor : Option Nat
  /-- Nothing of the document has been read, so that `\A` holds. -/
  first : Bool
  deriving DecidableEq, Repr

namespace Cursor

/-- The anchors that hold. -/
def anchors (c : Cursor) : Anchors := ⟨c.first, c.anchor == some c.position⟩

/-- Goes forward to a position, if it lies ahead. -/
def advance (c : Cursor) (position : Nat) : Cursor :=
  if c.position < position then { c with position := position, first := false } else c

end Cursor

/-- **How the text of a group is read on**: a text up to the end of the group, and the cursor at
its start. -/
abbrev ReadOn (σ : Type) := (text : String) → Cursor → Read σ Unit

end Highlight
