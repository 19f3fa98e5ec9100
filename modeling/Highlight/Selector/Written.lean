import Highlight.Selector.Matcher

/-!
# Written selectors

How a selector is written so that its text leaves no choice in reading it. Every operand stands
in parentheses: names between blanks, operands of a conjunction one after the other, alternatives
with a bar between them. Only a negation is written by its sign in front of its operand.

More parentheses around an operand change nothing, so a matcher has many texts. It has one at all
if its names can be told from the signs and the priorities, and if its conjunctions and choices
have several operands: those of a single one are written as that operand.
-/

namespace Highlight.Selector

/-- A character that names are written with: an ASCII letter or digit, or one of `_`, `.`, `:`
and `-`. -/
def isPlainSign (c : Char) : Bool :=
  c.isAlphanum || c == '_' || c == '.' || c == ':' || c == '-'

/-- What a name cannot begin with: the sign of a negation, and the priorities. -/
def misleading : List (List Char) := ["-", "L:", "R:", "B:"].map String.toList

/-- **A name that can be written.** -/
def isIdentifier (name : String) : Bool :=
  !name.toList.isEmpty && name.toList.all isPlainSign &&
    !misleading.any (·.isPrefixOf name.toList)

namespace Matcher

mutual

/-- **A matcher that can be written.** -/
def isWritable : Matcher → Bool
  | never => true
  | path names => !names.isEmpty && names.all isIdentifier
  | and operands => 2 ≤ operands.length && areWritable operands
  | or operands => 2 ≤ operands.length && areWritable operands
  | not operand => operand.isWritable

/-- All of some matchers can be written. -/
def areWritable : List Matcher → Bool
  | [] => true
  | m :: ms => m.isWritable && areWritable ms

end

mutual

/-- **A text of a matcher.** -/
inductive Writes : Matcher → List Char → Prop
  /-- Nothing in parentheses. -/
  | never : Writes never ['(', ')']
  /-- The names, with blanks between them. -/
  | path (names : List String) :
    Writes (path names) ('(' :: ([' '].intercalate (names.map String.toList) ++ [')']))
  /-- The operands, one after the other. -/
  | and {ms : List Matcher} {cs : List Char} (h : WritesAll ms cs) :
    Writes (and ms) ('(' :: (cs ++ [')']))
  /-- The alternatives, with bars between them. -/
  | or {ms : List Matcher} {cs : List Char} (h : WritesAny ms cs) :
    Writes (or ms) ('(' :: (cs ++ [')']))
  /-- The sign, and the operand. -/
  | not {m : Matcher} {cs : List Char} (h : Writes m cs) : Writes (not m) ('-' :: cs)
  /-- Any text in parentheses once more. -/
  | enclosed {m : Matcher} {cs : List Char} (h : Writes m cs) : Writes m ('(' :: (cs ++ [')']))

/-- A text of the operands of a conjunction. -/
inductive WritesAll : List Matcher → List Char → Prop
  /-- No operand. -/
  | nil : WritesAll [] []
  /-- An operand, and the others after it. -/
  | cons {m : Matcher} {ms : List Matcher} {cs ds : List Char} (h : Writes m cs)
    (hs : WritesAll ms ds) : WritesAll (m :: ms) (cs ++ ds)

/-- A text of the alternatives of a choice. -/
inductive WritesAny : List Matcher → List Char → Prop
  /-- The last alternative. -/
  | last {m : Matcher} {cs : List Char} (h : Writes m cs) : WritesAny [m] cs
  /-- An alternative, and the others after a bar. -/
  | cons {m : Matcher} {ms : List Matcher} {cs ds : List Char} (h : Writes m cs)
    (hs : WritesAny ms ds) : WritesAny (m :: ms) (cs ++ '|' :: ds)

end

end Matcher

/-- The texts of a priority. That of no particular one may be left out. -/
def Priority.marks : Priority → List String
  | left => ["L:"]
  | normal => ["", "B:"]
  | right => ["R:"]

/-- **A text of a part**: its priority, and its matcher. -/
def Part.Writes (p : Part) (cs : List Char) : Prop :=
  ∃ mark ∈ p.priority.marks, ∃ ds, p.matcher.Writes ds ∧ cs = mark.toList ++ ds

/-- **A text of a selector**: the texts of its parts, with commas between them. -/
inductive Writes : List Part → List Char → Prop
  /-- The last part. -/
  | last {p : Part} {cs : List Char} (h : p.Writes cs) : Writes [p] cs
  /-- A part, and the others after a comma. -/
  | cons {p : Part} {ps : List Part} {cs ds : List Char} (h : p.Writes cs) (hs : Writes ps ds) :
    Writes (p :: ps) (cs ++ ',' :: ds)

end Highlight.Selector
