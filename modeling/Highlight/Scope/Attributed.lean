import Highlight.Scope.Path
import Highlight.TokenAttributes

/-!
# Scope paths with attributes

While a line is read, every scope of a path carries the attributes that the path up to it
resolves to. They are computed once, when the scope is pushed.
-/

namespace Highlight

/-- A scope and the attributes of the path up to it. -/
structure AttributedScope where
  /-- The scope. -/
  name : String
  /-- The attributes. -/
  attributes : TokenAttributes
  deriving DecidableEq, Repr

/-- **A scope path with attributes**: the innermost scope and those around it, nearest first. -/
structure AttributedPath where
  /-- The innermost scope. -/
  top : AttributedScope
  /-- The scopes around it, nearest first. -/
  outer : List AttributedScope
  deriving DecidableEq, Repr

namespace AttributedPath

/-- The path of a single scope. -/
def root (name : String) (attributes : TokenAttributes) : AttributedPath :=
  ⟨⟨name, attributes⟩, []⟩

/-- The path with one more scope inside. -/
def push (p : AttributedPath) (name : String) (attributes : TokenAttributes) : AttributedPath :=
  ⟨⟨name, attributes⟩, p.top :: p.outer⟩

/-- The path of the scopes around the innermost one. -/
def parent? (p : AttributedPath) : Option AttributedPath :=
  match p.outer with
  | [] => none
  | s :: rest => some ⟨s, rest⟩

/-- The path without its attributes. -/
def path (p : AttributedPath) : ScopePath := ⟨p.top.name, p.outer.map (·.name)⟩

/-- The scopes, outermost first. -/
def names (p : AttributedPath) : List String := p.path.names

/-- The attributes that the path resolves to. -/
def attributes (p : AttributedPath) : TokenAttributes := p.top.attributes

@[simp] theorem path_push (p : AttributedPath) (name : String) (a : TokenAttributes) :
    (p.push name a).path = p.path.push name := rfl

@[simp] theorem attributes_push (p : AttributedPath) (name : String) (a : TokenAttributes) :
    (p.push name a).attributes = a := rfl

end AttributedPath

end Highlight
