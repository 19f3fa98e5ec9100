import Highlight.Regex.CharSet

/-!
# Patterns as they are written

A **term** is the form in which a pattern is read. It keeps what the later steps look at: which
texts leave case out of account, where parentheses stand, and which bounds a repetition has. It
is not yet matched: foldings of case are spelled out first, and what looks behind is prepared.

Sequences and alternatives are pairs that nest to the right. A sequence that stands first in
another one keeps its parentheses and stays a part of its own.
-/

namespace Highlight.Regex

/-- A condition on a place in the text. -/
inductive Place where
  /-- The start of the text, or the place after a line end that is not the last character. -/
  | lineStart
  /-- The end of the text, or the place before a line end. -/
  | lineEnd
  /-- The start of the text. -/
  | textStart
  /-- The end of the text. -/
  | textEnd
  /-- The end of the text, or the place before a line end that is the last character. -/
  | lastLineEnd
  /-- The place where the search began. -/
  | searchStart
  /-- A word begins or ends here. -/
  | wordEdge
  /-- No word begins or ends here. -/
  | noWordEdge
  deriving DecidableEq, Repr

/-- **A pattern as it is written.** -/
inductive Term where
  /-- These characters, one after the other. -/
  | text (cs : List Char) (anyCase : Bool)
  /-- Any one character, line ends perhaps excluded. -/
  | any (lineEnds : Bool)
  /-- One character of a set. -/
  | set (s : CharSet)
  /-- The empty text at certain places. -/
  | place (p : Place)
  /-- Nothing at all. -/
  | never
  /-- One after the other. -/
  | seq (a b : Term)
  /-- The first, or else the second. -/
  | alt (a b : Term)
  /-- A pattern in parentheses that do nothing else. -/
  | bare (body : Term)
  /-- A pattern that has options of its own. -/
  | optioned (body : Term)
  /-- A pattern whose match is remembered as a group. -/
  | group (index : Nat) (body : Term)
  /-- A pattern again and again, at least `least` times and at most `most` times; as often as
  possible, or as rarely as possible. -/
  | loop (body : Term) (least : Nat) (most : Option Nat) (greedy : Bool)
  /-- The first match of the body and no other. -/
  | atomic (body : Term)
  /-- The empty text where the body matches ahead, or where it does not. -/
  | ahead (body : Term) (negated : Bool)
  /-- The empty text where the body matches what stands before, or where it does not. -/
  | behind (body : Term) (negated : Bool)
  /-- What one of some groups matched, the first of them that has a match. `within` tells that
  one of them is still open where the reference stands. -/
  | back (groups : List Nat) (anyCase within : Bool)
  deriving Repr

namespace Term

/-- The empty pattern. -/
def empty : Term := text [] false

/-- The parts of a sequence. -/
def parts : Term → List Term
  | seq a b => a :: b.parts
  | t => [t]

/-- The pattern of some parts, one after the other. -/
def seqOf : List Term → Term
  | [] => empty
  | [t] => t
  | t :: ts => seq t (seqOf ts)

/-- The pattern of some alternatives. -/
def altOf : List Term → Term
  | [] => never
  | [t] => t
  | t :: ts => alt t (altOf ts)

/-- Joins texts that stand side by side and agree about case. -/
def joinTexts : List Term → List Term
  | [] => []
  | t :: ts =>
    match t, joinTexts ts with
    | text cs anyCase, text ds anyCase' :: rest =>
      if anyCase = anyCase' then text (cs ++ ds) anyCase :: rest
      else text cs anyCase :: text ds anyCase' :: rest
    | t, rest => t :: rest

/-- **One after the other**, as written: the parts of a sequence that does not stand first
become parts of the whole, and texts are joined. -/
def branch : List Term → Term
  | [] => empty
  | t :: ts => seqOf (joinTexts (t :: ts.flatMap parts))

/-- A sign of repetition may not follow: the pattern only looks at the place, or one of its
alternatives does. -/
def isRigid : Term → Bool
  | place _ | ahead .. | behind .. => true
  | alt a b => a.isRigid || b.isRigid
  | _ => false

/-! ## Repetition -/

/-- The six usual ways to repeat. -/
inductive Sign where
  /-- `?` -/
  | optional
  /-- `*` -/
  | zeroOrMore
  /-- `+` -/
  | oneOrMore
  /-- `??` -/
  | optionalLazy
  /-- `*?` -/
  | zeroOrMoreLazy
  /-- `+?` -/
  | oneOrMoreLazy
  deriving DecidableEq, Repr

/-- The usual way that bounds amount to, if any. -/
def Sign.ofBounds? (least : Nat) (most : Option Nat) (greedy : Bool) : Option Sign :=
  match least, most, greedy with
  | 0, some 1, true => some .optional
  | 0, none, true => some .zeroOrMore
  | 1, none, true => some .oneOrMore
  | 0, some 1, false => some .optionalLazy
  | 0, none, false => some .zeroOrMoreLazy
  | 1, none, false => some .oneOrMoreLazy
  | _, _, _ => none

/-- How a repetition of a repetition is simplified. -/
inductive Merger where
  /-- The inner repetition says it all. -/
  | inner
  /-- Both together are one repetition. -/
  | one (sign : Sign)
  /-- An optional repetition, as rarely as possible, of at least one round. -/
  | rarelySome
  /-- It stays as it is. -/
  | both
  deriving DecidableEq, Repr

/-- The simplification of one usual way inside another. -/
def Merger.of (inside outside : Sign) : Merger :=
  match inside, outside with
  | .optional, .optional => .inner
  | .optional, .zeroOrMore | .optional, .oneOrMore => .one .zeroOrMore
  | .optional, .optionalLazy => .one .optionalLazy
  | .optional, .zeroOrMoreLazy => .one .zeroOrMoreLazy
  | .optional, .oneOrMoreLazy => .both
  | .zeroOrMore, .optionalLazy | .zeroOrMore, .zeroOrMoreLazy => .rarelySome
  | .zeroOrMore, _ => .inner
  | .oneOrMore, .optional | .oneOrMore, .zeroOrMore => .one .zeroOrMore
  | .oneOrMore, .optionalLazy => .both
  | .oneOrMore, .zeroOrMoreLazy => .rarelySome
  | .oneOrMore, _ => .inner
  | .optionalLazy, .optional | .optionalLazy, .optionalLazy => .inner
  | .optionalLazy, _ => .one .zeroOrMoreLazy
  | .zeroOrMoreLazy, _ => .inner
  | .oneOrMoreLazy, .optionalLazy | .oneOrMoreLazy, .zeroOrMoreLazy => .one .zeroOrMoreLazy
  | .oneOrMoreLazy, .oneOrMoreLazy => .inner
  | .oneOrMoreLazy, _ => .both

/-- A pattern repeated in one of the usual ways. -/
def repeatedBy (body : Term) : Sign → Term
  | .optional => loop body 0 (some 1) true
  | .zeroOrMore => loop body 0 none true
  | .oneOrMore => loop body 1 none true
  | .optionalLazy => loop body 0 (some 1) false
  | .zeroOrMoreLazy => loop body 0 none false
  | .oneOrMoreLazy => loop body 1 none false

/-- **A pattern repeated.** A repetition of a repetition is simplified: two usual ways become
one where they can, exact numbers are multiplied, and bounds around a repetition without an end
lose their upper part. -/
def repeated (t : Term) (least : Nat) (most : Option Nat) (greedy : Bool) : Term :=
  if least = 1 ∧ most = some 1 then t
  else match t with
    | loop body least' most' greedy' =>
      match Sign.ofBounds? least' most' greedy', Sign.ofBounds? least most greedy with
      | some inside, some outside =>
        match Merger.of inside outside with
        | .inner => t
        | .one sign => repeatedBy body sign
        | .rarelySome => loop (loop body 1 none true) 0 (some 1) false
        | .both => loop t least most greedy
      | inside, _ =>
        let most := match inside, most with
          | some .zeroOrMore, some m | some .oneOrMore, some m =>
            if 1 < m ∧ greedy then some (max least 1) else some m
          | _, m => m
        if most = some least ∧ most' = some least' then
          loop body (least * least') (some (least * least')) greedy
        else loop t least most greedy
    | _ => loop t least most greedy

/-! ## Groups and references -/

/-- The groups of a pattern, with their bodies. -/
def groups : Term → List (Nat × Term)
  | seq a b | alt a b => a.groups ++ b.groups
  | group index a => (index, a) :: a.groups
  | bare a | optioned a | loop a .. | atomic a | ahead a _ | behind a _ => a.groups
  | _ => []

/-- The groups that a pattern refers to, once for every reference. -/
def references : Term → List Nat
  | seq a b | alt a b => a.references ++ b.references
  | back groups .. => groups
  | group _ a | bare a | optioned a | loop a .. | atomic a | ahead a _ | behind a _ =>
    a.references
  | _ => []

end Term

end Highlight.Regex
