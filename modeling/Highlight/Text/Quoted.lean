import Highlight.Unicode.Category

/-!
# Quoted text

Texts shown in descriptions are quoted: the quote, the backslash and the usual control
characters have short escapes, and any other character that would not show by itself – a
control or format character, an unassigned one, a mark that joins the character before it, a
letter that shows nothing, any blank but the space – is written by its code point.
-/

namespace Highlight.Text

/-- Spacing marks that are shown joined to the character before them all the same. -/
def joinedMarks : Unicode.Intervals := .ofText
  "9be 9d7 b3e b57 bbe bd7 cc0 cc2 cc7-cc8 cca-ccb cd5-cd6 d3e d57 dcf ddf 1715 1734 1b35 1b3b 1b3d
   1b43-1b44 1baa 1bf2-1bf3 302e-302f a953 a9c0 111c0 11235 1133e 1134d 11357 113b8 113c2 113c5
   113c7-113c9 113cf 114b0 114bd 115af 116b6 11930 1193d 11f41 16ff0-16ff1 1d165-1d166 1d16d-1d172"

/-- Letters that fill the place of a letter and show nothing. -/
def fillers : Unicode.Intervals := .ofText
  "115f-1160 3164 ffa0"

/-- A character shows by itself between quotes. -/
def isShown (c : Char) : Bool :=
  if c.toNat < 0x7f then c.toNat ≥ 0x20
  else match Unicode.category .seventeen c with
    | .mn | .me | .zs | .zl | .zp | .cc | .cf | .cs | .co | .cn => false
    | .mc => !joinedMarks.contains c.toNat
    | _ => !fillers.contains c.toNat

/-- The escape of a character between quotes, or the character itself. -/
def quoteChar (c : Char) : List Char :=
  match c with
  | '"' => ['\\', '"']
  | '\\' => ['\\', '\\']
  | '\n' => ['\\', 'n']
  | '\r' => ['\\', 'r']
  | '\t' => ['\\', 't']
  | '\x00' => ['\\', '0']
  | _ =>
    if isShown c then [c]
    else ['\\', 'u', '\x7b'] ++ Nat.toDigits 16 c.toNat ++ ['\x7d']

/-- **A text between quotes.** -/
def quoted (s : String) : String :=
  String.ofList ('"' :: (s.toList.flatMap quoteChar ++ ['"']))

/-- A list of texts, quoted and bracketed. -/
def quotedList (texts : List String) : String :=
  "[" ++ ", ".intercalate (texts.map quoted) ++ "]"

end Highlight.Text
