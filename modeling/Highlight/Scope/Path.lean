/-!
# Scope paths

The scopes that apply to a piece of text, from the outermost, which names the language, to the
innermost. A path is never empty.
-/

namespace Highlight

/-- **A scope path**: the innermost scope and its ancestors, nearest first. -/
structure ScopePath where
  /-- The innermost scope. -/
  name : String
  /-- The scopes around it, nearest first. -/
  ancestors : List String
  deriving DecidableEq, Repr

namespace ScopePath

/-- The path of a single scope. -/
def root (name : String) : ScopePath := ⟨name, []⟩

/-- The path with one more scope inside. -/
def push (p : ScopePath) (name : String) : ScopePath := ⟨name, p.name :: p.ancestors⟩

/-- The path of the scopes around the innermost one. -/
def parent? (p : ScopePath) : Option ScopePath :=
  match p.ancestors with
  | [] => none
  | name :: rest => some ⟨name, rest⟩

/-- The scopes, outermost first. -/
def names (p : ScopePath) : List String := (p.name :: p.ancestors).reverse

/-- The path of some scopes, outermost first. -/
def ofNames? : List String → Option ScopePath
  | [] => none
  | name :: rest => some (rest.foldl push (root name))

/-- The text of a path: its scopes between blanks. -/
def text (p : ScopePath) : String := " ".intercalate p.names

@[simp] theorem names_push (p : ScopePath) (name : String) :
    (p.push name).names = p.names ++ [name] := by
  simp [push, names]

end ScopePath

end Highlight
