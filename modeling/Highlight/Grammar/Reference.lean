import Highlight.Grammar.Definition
import Highlight.Text.Split

/-!
# References between rules

A rule refers to rules elsewhere: to all rules of its own grammar, to those of the grammar that
the text began with, to a named rule in sight, or to another grammar or a named rule of it.

A rule is told apart from an equal one by its **site**: the grammar it stands in and the way to
it from the top of that grammar.
-/

namespace Highlight.Grammar

/-- **A reference**, read. -/
inductive Reference where
  /-- All rules of the grammar that the text began with. -/
  | base
  /-- All rules of the grammar that the reference stands in. -/
  | self
  /-- A named rule in sight. -/
  | named (name : String)
  /-- All rules of another grammar. -/
  | grammar (scope : String)
  /-- A named rule of another grammar. -/
  | namedIn (scope name : String)
  deriving DecidableEq, Repr

namespace Reference

/-- Reads a reference. The first number sign separates a grammar from a name. -/
def ofText (text : String) : Reference :=
  if text = "$base" then base
  else if text = "$self" then self
  else match Text.cut? '#' text with
    | none => grammar text
    | some (scope, name) => if scope = "" then named name else namedIn scope name

end Reference

/-- Which list of captures of a rule. -/
inductive CaptureList where
  /-- The captures of all patterns. -/
  | common
  /-- The captures of the opening pattern. -/
  | opening
  /-- The captures of the closing pattern. -/
  | closing
  /-- The captures of the continuing pattern. -/
  | continuing
  deriving DecidableEq, Repr, Hashable

/-- A step from a rule to a rule inside it. -/
inductive Step where
  /-- To a rule of its list. -/
  | pattern (index : Nat)
  /-- To the rule for a group. -/
  | capture (list : CaptureList) (group : Nat)
  /-- To a named rule of its repository. -/
  | entry (name : String)
  /-- From a grammar to an injected rule. -/
  | injection (selector : String)
  deriving DecidableEq, Repr, Hashable

/-- **The site of a rule**: its grammar, and the way to it, last step first. The grammar as a
whole is at the end of no steps. -/
structure Site where
  /-- The grammar. -/
  grammar : String
  /-- The steps, last first. -/
  steps : List Step
  deriving DecidableEq, Repr, Hashable

namespace Site

/-- The site of a grammar as a whole. -/
def top (grammar : String) : Site := ⟨grammar, []⟩

/-- The site one step further inside. -/
def inside (s : Site) (step : Step) : Site := ⟨s.grammar, step :: s.steps⟩

end Site

/-- A rule with its site. -/
structure Located where
  /-- The site. -/
  site : Site
  /-- The rule. -/
  rule : RuleDefinition

/-- The rules of a list inside the rule at a site. -/
def locatePatterns (site : Site) (rules : List RuleDefinition) : List Located :=
  rules.zipIdx.map (fun (r, index) => ⟨site.inside (.pattern index), r⟩)

/-- The named rules of a repository inside the rule at a site. -/
def locateEntries (site : Site) (entries : List (String × RuleDefinition)) :
    List (String × Located) :=
  entries.map (fun (name, r) => (name, ⟨site.inside (.entry name), r⟩))

namespace Definition

/-- The site of a grammar as a whole. -/
def site (d : Definition) : Site := .top d.scopeName

/-- The rules of a grammar, in order. -/
def locatedPatterns (d : Definition) : List Located := locatePatterns d.site d.patterns

/-- The named rules of a grammar. -/
def locatedEntries (d : Definition) : List (String × Located) := locateEntries d.site d.repository

/-- The rules that a grammar injects into itself, by selector. -/
def locatedInjections (d : Definition) : List (String × Located) :=
  d.injections.map (fun (selector, r) => (selector, ⟨d.site.inside (.injection selector), r⟩))

end Definition

end Highlight.Grammar
