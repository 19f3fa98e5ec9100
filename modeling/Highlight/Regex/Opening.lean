import Highlight.Regex.Extent

/-!
# Where a search may begin

A pattern that begins with `.*` would match at every place of a line if it matched at the first,
so it is enough to try it where a line begins. That is a rule for the search, and not a law of
patterns: it is also applied where something that takes no text stands before the dot, such as
`(?<=:).*`, and such a pattern is then not found in the middle of a line.

Where the dot matches line ends, too, the same holds of the whole text. That rule is given up if
the pattern begins by looking behind, and it needs all patterns that are searched for together
to agree.
-/

namespace Highlight.Regex

/-- **How a pattern begins and ends**, as far as a search makes use of it. -/
structure Opening where
  /-- It begins with dots that stop at line ends. -/
  lineDots : Bool := false
  /-- It begins with dots that do not stop at line ends. -/
  textDots : Bool := false
  /-- It begins by looking behind. -/
  looksBehind : Bool := false
  /-- It ends at the end of the text. -/
  textEnd : Bool := false
  /-- It ends at the end of the text or before its last line end. -/
  lastLineEnd : Bool := false
  /-- It takes no character. -/
  hollow : Bool := true
  deriving DecidableEq, Repr

namespace Opening

/-- The opening of what takes characters. -/
def solid : Opening := { hollow := false }

/-- The opening of one after the other. -/
def add (a b : Opening) : Opening where
  lineDots := a.lineDots || (a.hollow && b.lineDots)
  textDots := a.textDots || (a.hollow && b.textDots)
  looksBehind := a.looksBehind || (a.hollow && b.looksBehind)
  textEnd := b.textEnd || (b.hollow && a.textEnd)
  lastLineEnd := b.lastLineEnd || (b.hollow && a.lastLineEnd)
  hollow := a.hollow && b.hollow

/-- What two openings have in common. -/
def meet (a b : Opening) : Opening where
  lineDots := a.lineDots && b.lineDots
  textDots := a.textDots && b.textDots
  looksBehind := a.looksBehind && b.looksBehind
  textEnd := a.textEnd && b.textEnd
  lastLineEnd := a.lastLineEnd && b.lastLineEnd
  hollow := a.hollow && b.hollow

/-- An opening without its dots. -/
def withoutDots (a : Opening) : Opening := { a with lineDots := false, textDots := false }

/-- The rule for the whole text holds of a pattern. -/
def isTextWide (a : Opening) : Bool := a.textDots && !a.looksBehind

end Opening

namespace Term

/-- **The opening of a pattern**, given the extents of its groups and the groups that it refers
to. `isFirst` tells that nothing but what takes no text stands before it. Dots in a group that
is referred to do not count. -/
def opening (es : Extents) (referred : List Nat) (isFirst : Bool) : Term → Opening
  | text cs _ => { hollow := cs.isEmpty }
  | any _ | set _ => .solid
  | never | ahead .. => {}
  | place p => { textEnd := p = .textEnd, lastLineEnd := p = .lastLineEnd }
  | behind _ negated => { looksBehind := !negated }
  | back groups anyCase within =>
    { hollow := ((back groups anyCase within).extent es).most == some 0 }
  | seq a b =>
    let oa := a.opening es referred isFirst
    oa.add (b.opening es referred (isFirst && oa.hollow))
  | alt a b => (a.opening es referred isFirst).meet (b.opening es referred isFirst)
  | bare a | optioned a | atomic a => a.opening es referred isFirst
  | group index a =>
    let oa := a.opening es referred isFirst
    if referred.contains index then oa.withoutDots else oa
  | loop a least most greedy =>
    if most = some 0 then {}
    else
      let oa := a.opening es referred isFirst
      let kept := if least = 0 then { hollow := oa.hollow } else oa
      match a with
      | any lineEnds =>
        if most = none ∧ isFirst ∧ greedy then
          { kept with lineDots := !lineEnds, textDots := lineEnds }
        else kept
      | _ => kept

end Term

end Highlight.Regex
