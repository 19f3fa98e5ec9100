/-!
# Positions in a text

Positions in a line are counted in bytes of its UTF-8 form, since that is what an editor and a
pattern engine exchange. A position may fall inside a character or beyond the text; cutting
there has no result, and every function below says so by `none`.
-/

namespace Highlight.Text

/-- The number of bytes of some characters. -/
def sizeOf : List Char → Nat
  | [] => 0
  | c :: cs => c.utf8Size + sizeOf cs

/-- The characters after the first `n` bytes. -/
def dropBytes? : Nat → List Char → Option (List Char)
  | 0, cs => some cs
  | _ + 1, [] => none
  | n + 1, c :: cs => if c.utf8Size ≤ n + 1 then dropBytes? (n + 1 - c.utf8Size) cs else none

/-- The characters of the first `n` bytes. -/
def takeBytes? : Nat → List Char → Option (List Char)
  | 0, _ => some []
  | _ + 1, [] => none
  | n + 1, c :: cs =>
    if c.utf8Size ≤ n + 1 then (takeBytes? (n + 1 - c.utf8Size) cs).map (c :: ·) else none

/-- **The part of a text between two positions**, `none` unless both are positions of the text
between characters and in order. -/
def slice? (s : String) (start stop : Nat) : Option String :=
  if start ≤ stop then
    ((dropBytes? start s.toList).bind (takeBytes? (stop - start))).map String.ofList
  else none

/-- The part of a text before a position. -/
def before? (s : String) (stop : Nat) : Option String :=
  (takeBytes? stop s.toList).map String.ofList

end Highlight.Text
