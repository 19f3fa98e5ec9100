import Highlight.Selector.Parser

/-!
# Balanced brackets

Which tokens may hold brackets that an editor should balance is configured by two lists of
selectors: those for which it should, and those for which it should not. The text `*` among the
former stands for every path.
-/

namespace Highlight.Selector

/-- **Selectors for balanced brackets.** -/
structure Brackets where
  /-- Paths with balanced brackets. -/
  balanced : List Matcher
  /-- Paths without. -/
  unbalanced : List Matcher
  /-- Paths that no selector is about have balanced brackets. -/
  otherwise : Bool

namespace Brackets

/-- What the parts of some selector texts select, priorities aside. -/
def matchers (texts : List String) : List Matcher :=
  texts.flatMap (fun t => (parse t).map (·.matcher))

/-- The selectors that two lists of texts write. -/
def ofTexts (balanced unbalanced : List String) : Brackets where
  balanced := matchers (balanced.filter (· ≠ "*"))
  unbalanced := matchers unbalanced
  otherwise := balanced.contains "*"

/-- Every path has balanced brackets. -/
def always (b : Brackets) : Bool := b.otherwise && b.unbalanced.isEmpty

/-- No path has balanced brackets. -/
def never (b : Brackets) : Bool := b.balanced.isEmpty && !b.otherwise

/-- **A path has balanced brackets.** -/
def selects (b : Brackets) (scopes : List String) : Bool :=
  !b.unbalanced.any (·.selects scopes) &&
    (b.balanced.any (·.selects scopes) || b.otherwise)

end Brackets

end Highlight.Selector
