import Highlight.Regex.CharSet
import Highlight.Regex.Term

/-!
# Patterns as they are matched

A **node** is the form in which a pattern is matched. Nothing is left in it of how the pattern
was written; instead it tells how far to look behind, and which loops watch for empty rounds.

A loop whose body can match the empty text would not end if it went on after an empty round, so
a **guard** ends it, even before its least number of rounds. But a round may be empty and yet
change what a group has matched, and what comes later may refer to that group. Such groups are
watched: if one of them has changed, the loop goes on.
-/

namespace Highlight.Regex

/-- **The guard of a loop** against empty rounds. -/
structure Guard where
  /-- The groups that are watched. -/
  watched : List Nat
  /-- How many more empty rounds there may be at one place. -/
  spare : Nat
  deriving DecidableEq, Repr

namespace Guard

/-- A guard that watches some groups. -/
def watching (groups : List Nat) : Guard := ⟨groups, groups.length⟩

end Guard

/-- **A pattern as it is matched.** -/
inductive Node where
  /-- Matches these characters. -/
  | text (cs : List Char)
  /-- Matches any one character, line ends perhaps excluded. -/
  | any (lineEnds : Bool)
  /-- Matches one character of a set. -/
  | set (s : CharSet)
  /-- Matches the empty text at certain places. -/
  | place (p : Place)
  /-- Matches nothing. -/
  | never
  /-- Matches one after the other. -/
  | seq (a b : Node)
  /-- Matches the first, or else the second. -/
  | alt (a b : Node)
  /-- Matches the body and remembers what it matched as a group. -/
  | group (index : Nat) (body : Node)
  /-- Matches the body again and again, at least `least` times and at most `most` times; as
  often as possible, or as rarely as possible. -/
  | loop (body : Node) (least : Nat) (most : Option Nat) (greedy : Bool) (guard : Option Guard)
  /-- Matches the first match of the body and no other. -/
  | atomic (body : Node)
  /-- Matches the empty text where the body matches ahead, or where it does not. -/
  | ahead (body : Node) (negated : Bool)
  /-- Matches the empty text where the body matches what stands before, or where it does not.
  The body takes at least `least` and at most `most` characters. -/
  | behind (body : Node) (least : Nat) (most : Option Nat) (negated : Bool)
  /-- Matches the text of the first of some groups that fits. -/
  | back (groups : List Nat) (anyCase : Bool)
  deriving Repr

namespace Node

/-- The pattern that matches the empty text. -/
def empty : Node := text []

/-- A measure of patterns that grows with every part. -/
def weight : Node → Nat
  | text _ | any _ | set _ | place _ | never | back .. => 1
  | seq a b | alt a b => a.weight + b.weight + 1
  | group _ a | atomic a | ahead a _ | behind a .. => a.weight + 1
  | loop a least most .. => a.weight + least + most.getD 0 + 1

/-- How many more empty rounds there may be at one place. -/
def spare : Node → Nat
  | loop _ _ _ _ (some g) => g.spare
  | _ => 0

/-- A bound of the empty rounds that there may be at one place, in every loop of a pattern. -/
def spareBound : Node → Nat
  | text _ | any _ | set _ | place _ | never | back .. => 0
  | seq a b | alt a b => max a.spareBound b.spareBound
  | group _ a | atomic a | ahead a _ | behind a .. => a.spareBound
  | loop a _ _ _ guard => max a.spareBound (guard.elim 0 (fun g => max g.spare g.watched.length))

theorem spare_le_spareBound (n : Node) : n.spare ≤ n.spareBound := by
  unfold spare
  split
  · exact Nat.le_trans (Nat.le_max_left _ _) (Nat.le_max_right _ _)
  · exact Nat.zero_le _

end Node

end Highlight.Regex
