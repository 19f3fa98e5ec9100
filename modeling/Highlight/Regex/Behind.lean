import Highlight.Regex.Extent
import Highlight.Regex.PatternError

/-!
# What looks behind

A pattern that looks behind is matched from a place further back, so it must be known how far
that may be. Some patterns may not look behind at all; the others are made ready here.

A repetition at the front of what looks behind need not go on: whatever it would take more lies
before what it needs. So it is cut down to the least number of rounds. What can match the empty
text at any place always looks behind with success. Alternatives of different lengths look
behind one by one.
-/

namespace Highlight.Regex

namespace Term

/-- A pattern may not look behind: it looks ahead or to the end of the text, or it has groups
although it must not match. -/
def isBarredBehind (negated : Bool) : Term → Bool
  | ahead .. => true
  | place p => p = .textEnd || p = .lastLineEnd
  | group _ a => negated || a.isBarredBehind negated
  | seq a b | alt a b => a.isBarredBehind negated || b.isBarredBehind negated
  | bare a | optioned a | loop a .. | atomic a | behind a _ => a.isBarredBehind negated
  | _ => false

/-- The greatest number of characters to look behind. -/
def behindLimit : Nat := 65535

/-- A repetition of what has no parts keeps its least number of rounds only. -/
def cutRounds : Term → Term
  | loop (text cs anyCase) least _ greedy => loop (text cs anyCase) least (some least) greedy
  | loop (any lineEnds) least _ greedy => loop (any lineEnds) least (some least) greedy
  | loop (set s) least _ greedy => loop (set s) least (some least) greedy
  | loop (back gs anyCase within) least _ greedy =>
    loop (back gs anyCase within) least (some least) greedy
  | t => t

/-- Nothing is left of a repetition. -/
def isCutAway : Term → Bool
  | loop _ _ (some 0) _ => true
  | _ => false

/-- Cuts the first repetition of one alternative down, and the next one if nothing is left. -/
def cutFront : Term → Term
  | seq a b =>
    let a := a.cutRounds
    if a.isCutAway then seq a b.cutFront else seq a b
  | bare a => bare a.cutRounds
  | t => t.cutRounds

/-- Cuts the first repetitions of all alternatives down. -/
def cutFronts : Term → Term
  | alt a b => alt a.cutFront b.cutFronts
  | t => t.cutFront

/-- What looks behind, unless it always matches. -/
def behindUnlessSure (es : Extents) (referred : List Nat) (body : Term) (negated : Bool) :
    Except PatternError Term :=
  let e := body.extent es
  if e.least > behindLimit ∨ (e.most.any (· > behindLimit)) then .error .invalidBehind
  else if e.least = 0 ∧ e.certain ∧ !body.groups.any (fun g => referred.contains g.1) then
    .ok (if negated then never else empty)
  else .ok (behind body negated)

/-- A pattern made ready to look behind. -/
def behindReady (es : Extents) (referred : List Nat) (body : Term) (negated : Bool) :
    Except PatternError Term := do
  if body.isBarredBehind negated then throw .invalidBehind
  let body := body.cutFronts
  match ← body.behindUnlessSure es referred negated with
  | behind body negated =>
    if body.differInLength es then
      let ts ← body.alternatives.mapM (fun a => a.cutFronts.behindUnlessSure es referred negated)
      return if negated then seqOf ts else altOf ts
    else return behind body negated
  | t => return t

/-- **A pattern in which all that looks behind is made ready**, given the extents of its groups
and the groups it refers to. -/
def lookingBack (es : Extents) (referred : List Nat) : Term → Except PatternError Term
  | seq a b => return seq (← a.lookingBack es referred) (← b.lookingBack es referred)
  | alt a b => return alt (← a.lookingBack es referred) (← b.lookingBack es referred)
  | bare a => return bare (← a.lookingBack es referred)
  | optioned a => return optioned (← a.lookingBack es referred)
  | group index a => return group index (← a.lookingBack es referred)
  | loop a least most greedy => return loop (← a.lookingBack es referred) least most greedy
  | atomic a => return atomic (← a.lookingBack es referred)
  | ahead a negated => return ahead (← a.lookingBack es referred) negated
  | behind a negated => do (← a.lookingBack es referred).behindReady es referred negated
  | t => return t

end Term

end Highlight.Regex
