import Highlight.Scope.Name

/-!
# Selectors

A selector says for which scope paths something applies. It is a boolean expression over lists
of scope names; each list asks for names that cover scopes of the path, in order, from the
outermost inwards.
-/

namespace Highlight.Selector

/-- Where something selected is tried relative to the rules it competes with. -/
inductive Priority where
  /-- Before them, if both match at one place. -/
  | left
  /-- After them. -/
  | normal
  /-- After everything else. -/
  | right
  deriving DecidableEq, Repr

namespace Priority

/-- The rank of a priority, lowest first. -/
def rank : Priority → Int
  | left => -1
  | normal => 0
  | right => 1

end Priority

/-- **A selector**, as an expression. -/
inductive Matcher where
  /-- Selects nothing: an operand that makes no sense. -/
  | never
  /-- The names cover scopes of the path, in order. -/
  | path (names : List String)
  /-- All of these. -/
  | and (operands : List Matcher)
  /-- One of these. -/
  | or (operands : List Matcher)
  /-- Not this. -/
  | not (operand : Matcher)
  deriving Repr

/-- The names cover scopes of the path in order: each takes the next scope that it covers. -/
def inOrder : (names scopes : List String) → Bool
  | [], _ => true
  | _ :: _, [] => false
  | name :: names, scope :: scopes =>
    if Scope.coveredBy scope name then inOrder names scopes else inOrder (name :: names) scopes

namespace Matcher

mutual

/-- **The matcher selects the path** with these scopes, outermost first. -/
def selects (scopes : List String) : Matcher → Bool
  | never => false
  | path names => inOrder names scopes
  | and operands => allSelect scopes operands
  | or operands => anySelects scopes operands
  | not operand => !selects scopes operand

/-- All operands select the path. -/
def allSelect (scopes : List String) : List Matcher → Bool
  | [] => true
  | m :: ms => selects scopes m && allSelect scopes ms

/-- Some operand selects the path. -/
def anySelects (scopes : List String) : List Matcher → Bool
  | [] => false
  | m :: ms => selects scopes m || anySelects scopes ms

end

end Matcher

/-- One part of a selector, with its priority. -/
structure Part where
  /-- The priority. -/
  priority : Priority
  /-- What the part selects. -/
  matcher : Matcher

end Highlight.Selector
