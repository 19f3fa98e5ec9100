import Highlight.Regex.CharSet
import Highlight.Regex.Term

/-!
# Texts to be searched

A text is searched in its UTF-8 form, and a place in it is a number of bytes. From place to place
one goes by characters. Only a search may begin inside a character; what it finds there are
**stray bytes**, each of which stands for itself until the next character begins. Whoever goes
back from there goes back to the beginning of that character, and so passes over them.
-/

namespace Highlight.Regex

/-- **What stands at a place** of a text. -/
inductive Letter where
  /-- A character. -/
  | char (c : Char)
  /-- A stray byte from inside a character. -/
  | byte (n : Nat)
  deriving DecidableEq, Repr

namespace Letter

/-- How many bytes it takes. -/
def size : Letter → Nat
  | char c => c.utf8Size
  | byte _ => 1

/-- It begins or continues a word. -/
def isWordSign : Letter → Bool
  | char c => Unicode.isWordSign c
  | byte n => Unicode.isWordSign (Char.ofNat n)

/-- It is in a set. -/
def isIn (l : Letter) (s : CharSet) : Bool :=
  match l with
  | char c => s.contains c
  | byte n => s.containsByte n

/-- It differs from another one in case alone. -/
def isAlike : Letter → Letter → Bool
  | char c, char d => Unicode.fold c == Unicode.fold d
  | a, b => a == b

/-- It is a character below U+0080. -/
def isAscii : Letter → Bool
  | char c => Unicode.isAscii c
  | byte _ => false

end Letter

/-- **A text to be searched**, and the place where the search begins. -/
structure Subject where
  /-- The bytes of the text. -/
  bytes : ByteArray
  /-- Where the search begins. -/
  start : Nat

namespace Subject

/-- How many bytes there are. -/
def size (s : Subject) : Nat := s.bytes.size

/-- **What stands at a place**, if it ends before the limit. -/
def letterAt? (s : Subject) (limit i : Nat) : Option Letter :=
  match s.bytes[i]? with
  | none => none
  | some n =>
    let l : Letter := match s.bytes.utf8DecodeChar? i with
      | some c => .char c
      | none => .byte n.toNat
    if i + l.size ≤ limit then some l else none

/-- The place after a place. -/
def next (s : Subject) (i : Nat) : Nat := i + ((s.letterAt? s.size i).map Letter.size).getD 1

/-- Where the character begins that has a byte at a place. -/
def beginning (s : Subject) : Nat → Nat
  | 0 => 0
  | i + 1 => if (s.bytes[i + 1]?).any (fun n => 0x80 ≤ n && n < 0xc0) then s.beginning i else i + 1

/-- The place before a place. -/
def previous (s : Subject) (i : Nat) : Nat := s.beginning (i - 1)

/-- So many places before a place, if there are so many. -/
def back? (s : Subject) : Nat → Nat → Option Nat
  | 0, i => some i
  | n + 1, i => if i = 0 then none else s.back? n (s.previous i)

/-- The first result at a place or at one of the places before it, nearest first, at most so
many. -/
def findBack? {α : Type} (s : Subject) (f : Nat → Option α) : Nat → Nat → Option α
  | 0, i => f i
  | n + 1, i => (f i).or (if i = 0 then none else s.findBack? f n (s.previous i))

/-- What stands before a place. -/
def letterBefore? (s : Subject) (i : Nat) : Option Letter :=
  if i = 0 then none else s.letterAt? s.size (s.previous i)

/-- A word begins or ends at a place. At the start of the text it takes a character before the
limit to begin one. -/
def isWordEdge (s : Subject) (limit i : Nat) : Bool :=
  if i = 0 then (s.letterAt? limit 0).any Letter.isWordSign
  else (s.letterBefore? i).any Letter.isWordSign != (s.letterAt? s.size i).any Letter.isWordSign

/-- A line end stands at a place. -/
def isLineEnd (s : Subject) (i : Nat) : Bool := s.bytes[i]? == some '\n'.toUInt8

/-- A line end stands before a place. -/
def isAfterLineEnd (s : Subject) (i : Nat) : Bool := i != 0 && s.isLineEnd (i - 1)

/-- A condition holds at a place. -/
def holdsAt (s : Subject) (limit i : Nat) : Place → Bool
  | .lineStart => i == 0 || (s.isAfterLineEnd i && i != s.size)
  | .lineEnd => i == s.size || s.isLineEnd i
  | .textStart => i == 0
  | .textEnd => i == s.size
  | .lastLineEnd => i == s.size || (i + 1 == s.size && s.isLineEnd i)
  | .searchStart => i == s.start
  | .wordEdge => s.isWordEdge limit i
  | .noWordEdge => !s.isWordEdge limit i

/-- The place after some characters, if they stand at a place before the limit. -/
def after? (s : Subject) (limit : Nat) : List Char → Nat → Option Nat
  | [], i => some i
  | c :: cs, i =>
    if s.letterAt? limit i = some (.char c) then after? s limit cs (i + c.utf8Size) else none

/-- So many bytes stand at two places. -/
def sameBytes (s : Subject) : (count a i : Nat) → Bool
  | 0, _, _ => true
  | count + 1, a, i => s.bytes[a]? == s.bytes[i]? && s.sameBytes count (a + 1) (i + 1)

/-- The place after a text at `i` that differs in case alone from the one between `a` and `b`. The
text may not go beyond the place `last`; where it has got there early, only a character below
U+0080 may still follow. No more letters are compared than `most`. -/
def afterAnyCase? (s : Subject) (last b : Nat) : (most a i : Nat) → Option Nat
  | 0, _, i => some i
  | most + 1, a, i =>
    if b ≤ a then some i
    else match s.letterAt? s.size a, s.letterAt? s.size i with
      | some l, some m =>
        if i + m.size ≤ last ∨ (last ≤ i ∧ m.isAscii) then
          if l.isAlike m then afterAnyCase? s last b most (a + l.size) (i + m.size) else none
        else none
      | _, _ => none

end Subject

end Highlight.Regex
