/-!
# Grammars as written

A grammar describes the scopes of a language by rules. What a rule does depends on which of its
parts are given: a pattern to be matched within a line; patterns that open a region and close
it, or that open a region and must match on each of its further lines; or neither, and then it
only holds other rules or refers to some.
-/

namespace Highlight.Grammar

/-- **A rule as written.** -/
structure RuleDefinition where
  /-- A reference to other rules. -/
  reference : Option String := none
  /-- The scope of what the rule matches. -/
  name : Option String := none
  /-- The scope of what stands between the delimiters of a region. -/
  contentName : Option String := none
  /-- A pattern matched within a line. -/
  pattern : Option String := none
  /-- Rules for the groups of patterns that have no list of their own, by group number. -/
  captures : Option (List (Nat × RuleDefinition)) := none
  /-- The pattern that opens a region. -/
  opening : Option String := none
  /-- Rules for the groups of the opening pattern. -/
  openingCaptures : Option (List (Nat × RuleDefinition)) := none
  /-- The pattern that closes a region. -/
  closing : Option String := none
  /-- Rules for the groups of the closing pattern. -/
  closingCaptures : Option (List (Nat × RuleDefinition)) := none
  /-- The pattern that each further line of a region must match. -/
  continuing : Option String := none
  /-- Rules for the groups of the continuing pattern. -/
  continuingCaptures : Option (List (Nat × RuleDefinition)) := none
  /-- The rules inside. An empty list differs from none: it hides a reference, and makes a
  capture a region of its own. -/
  patterns : Option (List RuleDefinition) := none
  /-- Rules by name, for references from inside. -/
  repository : List (String × RuleDefinition) := []
  /-- The closing pattern is tried after the rules inside, and not before. -/
  closeLast : Bool := false

/-- **A grammar as written.** -/
structure Definition where
  /-- The scope of the whole text, which also names the grammar. -/
  scopeName : String
  /-- A name for people. -/
  name : Option String := none
  /-- Another name for people. -/
  displayName : Option String := none
  /-- The endings of file names. -/
  fileTypes : List String := []
  /-- A pattern for the first line of a file. -/
  firstLineMatch : Option String := none
  /-- The rules. -/
  patterns : List RuleDefinition := []
  /-- Rules by name, for references. -/
  repository : List (String × RuleDefinition) := []
  /-- Rules that apply wherever a selector selects, by selector. -/
  injections : List (String × RuleDefinition) := []
  /-- Where the grammar applies when it is injected into another. -/
  injectionSelector : Option String := none
  /-- The grammars it injects itself into. -/
  injectTo : List String := []

namespace RuleDefinition

mutual

/-- How many rules a rule holds, itself included. -/
def size : RuleDefinition → Nat
  | ⟨_, _, _, _, c, _, oc, _, cc, _, kc, ps, rs, _⟩ =>
    1 + sizeCaptures? c + sizeCaptures? oc + sizeCaptures? cc + sizeCaptures? kc +
      sizePatterns? ps + sizeNamed rs

/-- How many rules an optional list of captures holds. -/
def sizeCaptures? : Option (List (Nat × RuleDefinition)) → Nat
  | none => 0
  | some cs => sizeCaptures cs

/-- How many rules a list of captures holds. -/
def sizeCaptures : List (Nat × RuleDefinition) → Nat
  | [] => 0
  | (_, r) :: rest => size r + sizeCaptures rest

/-- How many rules an optional list holds. -/
def sizePatterns? : Option (List RuleDefinition) → Nat
  | none => 0
  | some ps => sizePatterns ps

/-- How many rules a list holds. -/
def sizePatterns : List RuleDefinition → Nat
  | [] => 0
  | r :: rest => size r + sizePatterns rest

/-- How many rules a repository holds. -/
def sizeNamed : List (String × RuleDefinition) → Nat
  | [] => 0
  | (_, r) :: rest => size r + sizeNamed rest

end

end RuleDefinition

/-- How many rules a grammar holds, and one more for the grammar as a whole. -/
def Definition.size (d : Definition) : Nat :=
  1 + RuleDefinition.sizePatterns d.patterns + RuleDefinition.sizeNamed d.repository +
    RuleDefinition.sizeNamed d.injections

end Highlight.Grammar
