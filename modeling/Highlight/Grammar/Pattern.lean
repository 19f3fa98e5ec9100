import Highlight.Text.Natural
import Highlight.Text.Span
import Highlight.Unicode.Property

/-!
# The text of patterns

Patterns are handed to an engine as text, after changes that depend on where they are used.

* `\z` is written out as an end of text without a final line end.
* The anchors `\A` and `\G` hold only in some places. Where one does not, its letter is replaced
  by a character that no text contains, so that it cannot match.
* The closing pattern of a region may refer to the groups of the opening one, by a backslash and
  digits. Each reference is replaced by the text of the group, escaped so that it stands for
  itself.
-/

namespace Highlight.Grammar

/-- The number of a rule, from 1. -/
structure RuleId where
  /-- The number. -/
  number : Nat
  deriving DecidableEq, Repr, Hashable

/-- **What a pattern is for**: entering a rule, closing the region under way, or continuing
it. -/
inductive Role where
  /-- Entering a rule. -/
  | enter (rule : RuleId)
  /-- Closing a region. -/
  | close
  /-- Continuing a region on a further line. -/
  | continues
  deriving DecidableEq, Repr

/-- Which anchors hold. -/
structure Anchors where
  /-- `\A` holds: the text to be searched begins the document. -/
  start : Bool
  /-- `\G` holds: the search begins where the last match ended. -/
  resume : Bool
  deriving DecidableEq, Repr

namespace Anchors

/-- No anchor holds. -/
def neither : Anchors := ⟨false, false⟩

end Anchors

/-- The character put in place of what cannot match. -/
def unmatchable : Char := '\uffff'

/-- The pattern that matches nothing. -/
def matchesNothing : String := String.ofList [unmatchable]

namespace PatternText

/-- What `\z` is written out as. -/
def strictEnd : List Char := "$(?!\\n)(?<!\\n)".toList

/-- Writes out `\z`. -/
def writeOutEnd : List Char → List Char
  | '\\' :: c :: rest =>
    if c = 'z' then strictEnd ++ writeOutEnd rest else '\\' :: c :: writeOutEnd rest
  | c :: rest => c :: writeOutEnd rest
  | [] => []

/-- The text has an anchor that may not hold. -/
def hasAnchor : List Char → Bool
  | '\\' :: c :: rest => c == 'A' || c == 'G' || hasAnchor rest
  | _ :: rest => hasAnchor rest
  | [] => false

/-- Disables the anchors that do not hold. -/
def disable (a : Anchors) : List Char → List Char
  | '\\' :: c :: rest =>
    (if (c = 'A' ∧ ¬ a.start) ∨ (c = 'G' ∧ ¬ a.resume) then ['\\', unmatchable]
     else ['\\', c]) ++ disable a rest
  | c :: rest => c :: disable a rest
  | [] => []

/-- A piece of a pattern: a character, or a reference to a group. -/
inductive Piece where
  /-- A character. -/
  | char (c : Char)
  /-- A reference, by its digits. -/
  | group (digits : List Char)
  deriving DecidableEq, Repr

/-- The pieces of a pattern. A backslash before digits begins a reference, also one that is
itself escaped. -/
def pieces : List Char → List Piece
  | [] => []
  | c :: cs =>
    let digits := cs.takeWhile Unicode.isDecimal
    if c = '\\' ∧ digits ≠ [] then .group digits :: pieces (cs.dropWhile Unicode.isDecimal)
    else .char c :: pieces cs
termination_by cs => cs.length
decreasing_by
  · have := (List.dropWhile_suffix Unicode.isDecimal (l := cs)).length_le
    simp only [List.length_cons]
    omega
  · simp

/-- A piece is a reference. -/
def Piece.isGroup : Piece → Bool
  | group _ => true
  | char _ => false

/-- A character is written with a backslash where it should stand for itself. -/
def isSpecial (c : Char) : Bool :=
  Unicode.isBlank c || "-\\\x7b\x7d*+?|^$.,[]()#".toList.contains c

/-- Text that stands for itself in a pattern. -/
def escape (cs : List Char) : List Char :=
  cs.flatMap (fun c => if isSpecial c then ['\\', c] else [c])

/-- The text of a piece after a match. -/
def Piece.resolve (line : String) (captures : Captures) : Piece → List Char
  | char c => [c]
  | group digits =>
    escape (((Text.index? digits).bind (captures.text? line)).getD "").toList

end PatternText

/-- **A pattern of a grammar.** -/
structure Pattern where
  /-- The text. -/
  text : String
  /-- What the pattern is for. -/
  role : Role
  /-- The text, as written in the grammar, has anchors. -/
  anchored : Bool
  deriving DecidableEq, Repr

namespace Pattern

/-- The pattern that a grammar writes. -/
def ofSource (source : String) (role : Role) : Pattern :=
  let text := PatternText.writeOutEnd source.toList
  ⟨String.ofList text, role, PatternText.hasAnchor source.toList⟩

/-- The pattern refers to groups. -/
def hasReferences (p : Pattern) : Bool :=
  (PatternText.pieces p.text.toList).any (·.isGroup)

/-- **The text with its references resolved** by the groups of a match in a line. -/
def resolve (p : Pattern) (line : String) (captures : Captures) : String :=
  String.ofList ((PatternText.pieces p.text.toList).flatMap (·.resolve line captures))

/-- **The text for an engine**, where only these anchors hold. It is made anew from the text whenever
it is asked for, so it cannot be that of an earlier text. -/
def textWith (p : Pattern) (a : Anchors) : String :=
  if p.anchored then String.ofList (PatternText.disable a p.text.toList) else p.text

end Pattern

end Highlight.Grammar
