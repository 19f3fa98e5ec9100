import Highlight.Scope.Attributed
import Highlight.Selector.Brackets
import Highlight.Text.Span

/-!
# Tokens of a line

While a line is read, it is cut into segments, each from where the last one stopped, with the
scopes that hold there. Both kinds of result are views of the segments: **tokens**, which are
the segments with the names of their scopes, and **runs**, which are the segments with their
packed attributes, neighbours with equal attributes taken together.

A line is read with a line end added. Neither view shows it.
-/

namespace Highlight

/-- A segment: where it stops, and the scopes up to there. -/
structure Segment where
  /-- The scopes. -/
  scopes : AttributedPath
  /-- The position after its last byte. -/
  stop : Nat
  deriving DecidableEq, Repr

/-- **The segments of a line**, last first. -/
structure Segments where
  /-- The segments. -/
  list : List Segment := []
  deriving DecidableEq, Repr

namespace Segments

/-- Where a list of segments, last first, stops. -/
def stopOf (list : List Segment) : Nat := list.head?.elim 0 (·.stop)

/-- Up to where the line is cut. -/
def reached (t : Segments) : Nat := stopOf t.list

/-- **Cuts up to a position**, unless the line is cut up to there already. -/
def produce (t : Segments) (scopes : AttributedPath) (stop : Nat) : Segments :=
  if t.reached < stop then ⟨⟨scopes, stop⟩ :: t.list⟩ else t

/-- The stretches of segments, with their scopes. -/
def stretchesOf : List Segment → List (Span × AttributedPath)
  | [] => []
  | s :: rest => (⟨stopOf rest, s.stop⟩, s.scopes) :: stretchesOf rest

/-- The stretches, with their scopes, in order. -/
def stretches (t : Segments) : List (Span × AttributedPath) := (stretchesOf t.list).reverse

@[simp] theorem reached_produce (t : Segments) (scopes : AttributedPath) (stop : Nat) :
    (t.produce scopes stop).reached = max t.reached stop := by
  simp only [produce]
  split
  · simp only [reached, stopOf, List.head?_cons, Option.elim_some] at *
    omega
  · omega

end Segments

/-- **A token**: a stretch of the line and the names of its scopes. -/
structure Token where
  /-- The stretch. -/
  span : Span
  /-- The scopes, outermost first. -/
  scopes : List String
  deriving DecidableEq, Repr

/-- **A run**: where it starts, and the attributes from there on. -/
structure Run where
  /-- The first position. -/
  start : Nat
  /-- The attributes. -/
  attributes : TokenAttributes
  deriving DecidableEq, Repr

/-- **What overrides the attributes of scopes**: kinds of token forced by selectors, and the
selectors for balanced brackets. -/
structure Overrides where
  /-- The kinds; later ones prevail. -/
  kinds : List (Selector.Matcher × TokenKind) := []
  /-- The brackets. -/
  brackets : Option Selector.Brackets := none

namespace Overrides

/-- The kinds that selector texts force, one matcher for each part of a text. -/
def kindsOfTexts (texts : List (String × TokenKind)) : List (Selector.Matcher × TokenKind) :=
  texts.flatMap (fun (text, kind) => (Selector.parse text).map (fun p => (p.matcher, kind)))

/-- The path is one with balanced brackets. The names of the scopes are looked at only where
the answer may depend on them. -/
def balances (o : Overrides) (scopes : AttributedPath) : Bool :=
  match o.brackets with
  | none => false
  | some b =>
    if o.kinds.isEmpty && (b.always || b.never) then b.always else b.selects scopes.names

/-- **The attributes of scopes**, overrides applied. -/
def attributes (o : Overrides) (scopes : AttributedPath) : TokenAttributes :=
  let forced := o.kinds.foldl (fun (a : TokenAttributes) (m, kind) =>
    if m.selects scopes.names then a.merge { kind := some kind } else a) scopes.attributes
  if o.balances scopes then forced.merge { balanced := some true } else forced

end Overrides

namespace Segments

/-- The list without its last element, if that starts at a position. -/
def dropLastAt {α : Type} (start : α → Nat) (position : Nat) (xs : List α) : List α :=
  if xs.getLast?.any (start · == position) then xs.dropLast else xs

/-- Clips the end of the last token. -/
def clipLast (stop : Nat) : List Token → List Token
  | [] => []
  | [t] => [if stop < t.span.stop then { t with span := { t.span with stop := stop } } else t]
  | t :: ts => t :: clipLast stop ts

/-- **The tokens** of a line that is `size` bytes long without the added line end, and was left
with these scopes. The token of the line end is left out, or clipped. A line always has a
token. -/
def tokens (t : Segments) (last : AttributedPath) (size : Nat) : List Token :=
  let all := t.stretches.map (fun (span, scopes) => (⟨span, scopes.names⟩ : Token))
  let shown := dropLastAt (·.span.start) size all
  clipLast size (if shown.isEmpty then [⟨⟨0, size + 1⟩, last.names⟩] else shown)

/-- Takes neighbours with equal attributes together. -/
def mergeRuns : List Run → List Run
  | [] => []
  | r :: rest =>
    match mergeRuns rest with
    | [] => [r]
    | next :: others =>
      if r.attributes = next.attributes then r :: others else r :: next :: others

/-- **The runs** of a line that is `size` bytes long without the added line end, and was left
with these scopes. The run of the line end alone is left out. A line always has a run. -/
def runs (t : Segments) (o : Overrides) (last : AttributedPath) (size : Nat) : List Run :=
  let all := mergeRuns (t.stretches.map (fun (span, scopes) => ⟨span.start, o.attributes scopes⟩))
  let shown := dropLastAt (·.start) size all
  if shown.isEmpty then [⟨0, o.attributes last⟩] else shown

end Segments

end Highlight
