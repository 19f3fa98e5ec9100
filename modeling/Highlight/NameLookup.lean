import Highlight.Attribution
import Highlight.Keyed

/-!
# Looking scope names up

Some of what a scope changes is told by its name alone, whatever the scopes around it are: the
language that begins with it and the kind of its text. A document has many tokens and few names, so
what a name tells is worked out when it is first asked for and remembered from then on.
-/

namespace Highlight

/-- **What the name of a scope tells** by itself. -/
structure NameAttributes where
  /-- The embedded language, 0 if there is none. -/
  language : Nat
  /-- The kind of text, if the name tells any. -/
  kind : Option TokenKind
  deriving DecidableEq, Repr

/-- What a name tells, worked out. -/
def Attribution.tells (a : Attribution) (scope : String) : NameAttributes :=
  ⟨a.languageOf scope, kindOf? scope⟩

/-- **A lookup of names**, with what has been asked of it. -/
structure NameLookup where
  /-- What names are looked up by. -/
  attribution : Attribution
  /-- The names that have been asked for, and what they tell. -/
  known : List (String × NameAttributes) := []

namespace NameLookup

/-- **Asks what a name tells.** -/
def ask (l : NameLookup) (scope : String) : NameAttributes × NameLookup :=
  match Keyed.get? scope l.known with
  | some told => (told, l)
  | none =>
    let told := l.attribution.tells scope
    (told, { l with known := Keyed.put scope told l.known })

/-- The lookup after some names have been asked for, one after the other. -/
def askAll (l : NameLookup) (scopes : List String) : NameLookup :=
  scopes.foldl (fun l scope => (l.ask scope).2) l

end NameLookup

end Highlight
