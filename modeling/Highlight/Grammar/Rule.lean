import Highlight.Grammar.Pattern
import Highlight.Grammar.ScopeTemplate

/-!
# Compiled rules

A compiled rule has a number and refers to other rules by their numbers, so that rules may refer
to each other in circles. The numbers count from 1. A number is taken before its rule is
complete, and as long as the rule is not, its place in the table is empty.

From the table one reads off which patterns a rule can be **entered** by: its own, or those of
the rules that it chooses from.
-/

namespace Highlight.Grammar

/-- **The rules for the groups of a pattern**, by growing group number. -/
structure CaptureRules where
  /-- The rules. -/
  rules : List (Nat × RuleId) := []
  deriving DecidableEq, Repr

/-- One more than the greatest group number that has a rule. -/
def CaptureRules.length (c : CaptureRules) : Nat := (c.rules.map (·.1 + 1)).foldl max 0

/-- A pattern with the rules for its groups. -/
structure Delimiter where
  /-- The pattern. -/
  pattern : Pattern
  /-- The rules. -/
  captures : CaptureRules
  deriving DecidableEq, Repr

/-- The rules inside a rule. -/
structure Inside where
  /-- The rules, in the order in which they are tried. -/
  rules : List RuleId
  /-- Some rules that were written are left out. -/
  lacking : Bool
  deriving DecidableEq, Repr

/-- **What a rule does.** -/
inductive RuleBody where
  /-- It matches a pattern within a line. -/
  | single (matched : Delimiter)
  /-- It only holds other rules. -/
  | choice (inside : Inside)
  /-- It opens a region, up to the match of another pattern. The closing pattern is tried before
  the rules inside, or after them. -/
  | region (opening closing : Delimiter) (closeLast : Bool) (inside : Inside)
  /-- It opens a region of all further lines that match another pattern. -/
  | block (opening continuing : Delimiter) (inside : Inside)
  /-- It is for a group of another rule's pattern, and may have the text of the group read by
  further rules. -/
  | capture (within : Option RuleId)
  deriving DecidableEq, Repr

/-- **A rule.** -/
structure Rule where
  /-- The scope of what it matches. -/
  name : Option ScopeTemplate
  /-- The scope between its delimiters. -/
  contentName : Option ScopeTemplate
  /-- What it does. -/
  body : RuleBody
  deriving DecidableEq, Repr

namespace Rule

/-- The rules inside. -/
def inside? (r : Rule) : Option Inside :=
  match r.body with
  | .choice inside | .region _ _ _ inside | .block _ _ inside => some inside
  | .single _ | .capture _ => none

/-- All rules inside were left out, so that the rule leads nowhere. -/
def isVoid (r : Rule) : Bool := r.inside?.any (fun i => i.lacking && i.rules.isEmpty)

end Rule

/-- **A table of rules** by number. -/
structure RuleTable where
  /-- The rules, where complete; that of number 1 first. -/
  rules : Array (Option Rule) := #[]

namespace RuleTable

/-- How many numbers are taken. -/
def size (t : RuleTable) : Nat := t.rules.size

/-- The rule of a number. -/
def get? (t : RuleTable) (id : RuleId) : Option Rule :=
  if id.number = 0 then none else (t.rules[id.number - 1]?).join

/-- What the rule of a number does. -/
def body? (t : RuleTable) (id : RuleId) : Option RuleBody := (t.get? id).map Rule.body

/-- Takes the next number. -/
def reserve (t : RuleTable) : RuleId × RuleTable := (⟨t.size + 1⟩, ⟨t.rules.push none⟩)

/-- Puts the rule of a number that was taken. -/
def set (t : RuleTable) (id : RuleId) (r : Rule) : RuleTable :=
  ⟨t.rules.setIfInBounds (id.number - 1) (some r)⟩

/-- Takes the next number for a rule that is complete. -/
def add (t : RuleTable) (r : Rule) : RuleId × RuleTable :=
  (⟨t.size + 1⟩, ⟨t.rules.push (some r)⟩)

/-- The patterns that a rule can be entered by. A rule that only holds others is left out where
it turns up inside itself; hence the depth is bounded by the number of rules. -/
def entries (t : RuleTable) : (depth : Nat) → (around : List RuleId) → RuleId → List Pattern
  | 0, _, _ => []
  | depth + 1, around, id =>
    match t.body? id with
    | some (.single matched) => [matched.pattern]
    | some (.region opening ..) => [opening.pattern]
    | some (.block opening ..) => [opening.pattern]
    | some (.choice inside) =>
      if around.contains id then []
      else inside.rules.flatMap (t.entries depth (id :: around))
    | some (.capture _) | none => []

/-- The patterns that the rules inside can be entered by. -/
def entriesInside (t : RuleTable) (inside : Inside) : List Pattern :=
  inside.rules.flatMap (t.entries (t.size + 1) [])

/-- **The patterns that are looked for inside a rule**, in order. -/
def patternsOf (t : RuleTable) (id : RuleId) : List Pattern :=
  match t.body? id with
  | some (.single matched) => [matched.pattern]
  | some (.choice _) => t.entries (t.size + 1) [] id
  | some (.region _ closing closeLast inside) =>
    if closeLast then t.entriesInside inside ++ [closing.pattern]
    else closing.pattern :: t.entriesInside inside
  | some (.block _ _ inside) => t.entriesInside inside
  | some (.capture _) | none => []

end RuleTable

end Highlight.Grammar
