import Highlight.Regex.Behind
import Highlight.Regex.Matching
import Highlight.Regex.Parser
import Highlight.Regex.Plan
import Highlight.Scanner.Basic

/-!
# The engine of regular expressions

The patterns are compiled when a scanner is made, and the first that has an error is reported. A
search tries the places of the text from the start on, and at each place every pattern, except
those that are only tried where a line begins.
-/

namespace Highlight

namespace Regex

/-- **The compiled form of a pattern.** -/
def Expression.ofText (text : String) : Except PatternError Expression := do
  let (t, groups) ← parse text
  let t := t.caseless false
  let extents := t.groupExtents
  let referred := t.references
  let t ← t.lookingBack extents referred
  return ⟨(t.plan extents referred).node, groups, t.opening extents referred true⟩

/-- A pattern is tried at a place. One that begins with dots is tried where the search or a line
begins. -/
def Expression.isTriedAt (r : Expression) (s : Subject) (place : Nat) : Bool :=
  !r.opening.lineDots || place == s.start || s.isAfterLineEnd place

/-- The first match at a place among those of a list of expressions. -/
def firstAt? (s : Subject) (place : Nat) :
    List (Nat × Expression) → Option (Nat × Array (Option (Nat × Nat)))
  | [] => none
  | (index, r) :: rest =>
    match if r.isTriedAt s place then r.matchAt? s place else none with
    | some groups => some (index, groups)
    | none => firstAt? s place rest

/-- The first match at one of some places, from `place` on. -/
def firstFrom? (s : Subject) (rs : List (Nat × Expression)) (place : Nat) :
    (places : Nat) → Option (Nat × Array (Option (Nat × Nat)))
  | 0 => none
  | places + 1 =>
    if s.size < place then none
    else match firstAt? s place rs with
      | some found => some found
      | none => firstFrom? s rs (s.next place) places

/-- How many places are tried from the start of the search on, at most. If all patterns begin
with dots that do not stop at line ends, the search does not go beyond one byte, unless all of
them end at the end of the text. -/
def placesToTry (rs : List Expression) (s : Subject) : Nat :=
  let all := fun (p : Opening → Bool) => rs.all (fun r => p r.opening)
  if all Opening.isTextWide && !all Opening.textEnd && !all Opening.lastLineEnd then
    if s.next s.start = s.start + 1 then 2 else 1
  else s.size + 1 - s.start

/-- **Searches a text** from a position on. -/
def search (rs : List Expression) (text : String) (start : Nat) : Option Found :=
  let s : Subject := ⟨text.toUTF8, start⟩
  (firstFrom? s (rs.zipIdx.map (fun (r, i) => (i, r))) start (placesToTry rs s)).map
    (fun (index, groups) =>
      ⟨index, groups.toList.map (·.map (fun (a, b) => Span.mk a b))⟩)

end Regex

namespace Engine

/-- **The engine of regular expressions.** It keeps no state. -/
def regex (σ : Type) : Engine σ where
  compile patterns := pure (match patterns.mapM Regex.Expression.ofText with
    | .ok rs => .ok ⟨rs.length, fun text start => pure (Regex.search rs text start)⟩
    | .error e => .error e.message)

end Engine

end Highlight
