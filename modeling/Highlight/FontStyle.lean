import Highlight.Text.Split

/-!
# Font styles

A font style is a set of four flags. It takes four bits of the packed attributes, one flag each.
-/

namespace Highlight

/-- **A font style** as a set of flags, from the lowest bit: italic, bold, underline and
strikethrough. -/
structure FontStyle where
  /-- The flags. -/
  flags : BitVec 4
  deriving DecidableEq, Repr

namespace FontStyle

/-- No flag. -/
def plain : FontStyle := ⟨0⟩

/-- Slanted letters. -/
def italic : FontStyle := ⟨1⟩

/-- Heavy letters. -/
def bold : FontStyle := ⟨2⟩

/-- A line below. -/
def underline : FontStyle := ⟨4⟩

/-- A line across. -/
def strikethrough : FontStyle := ⟨8⟩

/-- The flags with the names that themes use. -/
def named : List (String × FontStyle) :=
  [("italic", italic), ("bold", bold), ("underline", underline), ("strikethrough", strikethrough)]

/-- The style with the flags of both. -/
def union (a b : FontStyle) : FontStyle := ⟨a.flags ||| b.flags⟩

/-- All flags of `b` are in `a`. -/
def contains (a b : FontStyle) : Bool := a.flags &&& b.flags == b.flags

/-- The style of the four lowest bits of a number. -/
def ofNat (n : Nat) : FontStyle := ⟨BitVec.ofNat 4 n⟩

/-- The style that a theme writes: names between blanks. Other words do not count. -/
def ofText (text : String) : FontStyle :=
  (Text.split ' ' text).foldl (fun s word => s.union ((named.lookup word).getD plain)) plain

/-- The names of the flags between blanks, or `none`. -/
def describe (s : FontStyle) : String :=
  if s = plain then "none"
  else " ".intercalate ((named.filter (fun p => s.contains p.2)).map (·.1))

end FontStyle

end Highlight
