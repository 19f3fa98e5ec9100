import Highlight.Scanner.Basic
import Highlight.Text.Split

/-!
# The engine of plain texts

Patterns of this engine stand for themselves and match where they occur. It is for trying out
grammars whose patterns need no more.
-/

namespace Highlight

namespace Literal

/-- The mark of a pattern that is refused. -/
def badMark : List Char := "!bad!".toList

/-- A text occurs in another. -/
def occurs (part : List Char) : List Char → Bool
  | [] => part.isEmpty
  | c :: cs => part.isPrefixOf (c :: cs) || occurs part cs

/-- The match of the first of the patterns that stands at a position. -/
def at? (patterns : List (List Char)) (position : Nat) (cs : List Char) : Option Found :=
  (patterns.findIdx? (·.isPrefixOf cs)).map (fun index =>
    ⟨index, [some ⟨position, position + Text.sizeOf (patterns.getD index [])⟩]⟩)

/-- The first occurrence of one of the patterns in a text that begins at a position. -/
def firstFrom? (patterns : List (List Char)) (position : Nat) : List Char → Option Found
  | [] => at? patterns position []
  | c :: cs =>
    (at? patterns position (c :: cs)).or (firstFrom? patterns (position + c.utf8Size) cs)

/-- **Searches a text** from a position on. -/
def search (patterns : List (List Char)) (text : String) (start : Nat) : Option Found :=
  (Text.dropBytes? start text.toList).bind (firstFrom? patterns start)

end Literal

namespace Engine

/-- **The engine of plain texts.** It keeps no state. -/
def literal (σ : Type) : Engine σ where
  compile patterns :=
    let patterns := patterns.map String.toList
    pure (if patterns.any (Literal.occurs Literal.badMark) then .error "bad literal"
      else .ok ⟨patterns.length, fun text start => pure (Literal.search patterns text start)⟩)

end Engine

end Highlight
