import Highlight.Regex.CharSet
import Highlight.Regex.PatternError

/-!
# Escapes

What a backslash and the letter after it stand for, where it is the same in a set of characters
as outside: a character, a property, or a character written by number. A number may be that of a
character or that of a single byte, in which case the bytes of one character follow each other.
-/

namespace Highlight.Regex

/-! ## Numbers -/

/-- The value of a hexadecimal digit. -/
def digit? (c : Char) : Option Nat :=
  if c.isDigit then some (c.toNat - '0'.toNat)
  else if 'a' ≤ c ∧ c ≤ 'f' then some (c.toNat - 'a'.toNat + 10)
  else if 'A' ≤ c ∧ c ≤ 'F' then some (c.toNat - 'A'.toNat + 10)
  else none

/-- The digits of a base at the front of a text, at most `most` of them, as a number, with how
many there are and the text after them. -/
def readDigits (base most : Nat) (cs : List Char) : Nat × Nat × List Char :=
  let ds := ((cs.take most).map digit?).takeWhile (fun v => v.any (· < base))
  (ds.foldl (fun n d => base * n + d.getD 0) 0, ds.length, cs.drop ds.length)

/-- **A character as it is written.** -/
inductive Written where
  /-- By itself. -/
  | char (c : Char)
  /-- By its code point. -/
  | code (n : Nat)
  /-- One of its bytes, with the base that the byte is written in. -/
  | byte (n base : Nat)
  deriving DecidableEq, Repr

/-- A character by number, from after `\x`: its code point in braces, or a byte of at most two
digits. The letter stands for itself if neither can be read. -/
def readHex (cs : List Char) : Except PatternError (Written × List Char) :=
  match cs with
  | [] => .ok (.char 'x', [])
  | '\x7b' :: braced =>
    let (n, count, rest) := readDigits 16 8 braced
    match rest with
    | '\x7d' :: rest => .ok (if count = 0 then (.char 'x', cs) else (.code n, rest))
    | c :: _ => if (digit? c).isSome then .error .tooLongCodePoint else .ok (.char 'x', cs)
    | [] => .ok (.char 'x', cs)
  | cs =>
    let (n, _, rest) := readDigits 16 2 cs
    .ok (.byte n 16, rest)

/-- A character by its code point of four digits, from after `\u`. The letter stands for itself
at the end of the text. -/
def readUnit (cs : List Char) : Except PatternError (Written × List Char) :=
  if cs.isEmpty then .ok (.char 'u', cs)
  else
    let (n, count, rest) := readDigits 16 4 cs
    if count = 4 then .ok (.code n, rest) else .error .codePoint

/-- A byte of at most three octal digits. -/
def readOctal (cs : List Char) : Except PatternError (Written × List Char) :=
  let (n, _, rest) := readDigits 8 3 cs
  if n ≤ 255 then .ok (.byte n 8, rest) else .error .tooBigNumber

/-! ## Bytes of characters -/

/-- How many bytes a character has that begins with a byte. A byte that cannot begin one stands
alone. -/
def sizeByLead (n : Nat) : Nat :=
  if n < 0xc2 then 1 else if n < 0xe0 then 2 else if n < 0xf0 then 3 else if n < 0xf5 then 4 else 1

/-- The character that some bytes write. -/
def charOfBytes? (bytes : List Nat) : Option Char :=
  (String.fromUTF8? ⟨(bytes.map UInt8.ofNat).toArray⟩).bind (fun s => s.toList.head?)

/-! ## Characters and properties -/

/-- The character that a letter after a backslash stands for. -/
def control? : Char → Option Char
  | 'n' => some '\n'
  | 't' => some '\t'
  | 'r' => some '\r'
  | 'f' => some '\x0c'
  | 'v' => some '\x0b'
  | 'a' => some '\x07'
  | 'e' => some '\x1b'
  | _ => none

/-- The property that a letter after a backslash stands for, and whether it is negated. -/
def propertyOf? : Char → Option (Property × Bool)
  | 'w' => some (.word, false)
  | 'W' => some (.word, true)
  | 'd' => some (.digit, false)
  | 'D' => some (.digit, true)
  | 's' => some (.space, false)
  | 'S' => some (.space, true)
  | 'h' => some (.hexDigit, false)
  | 'H' => some (.hexDigit, true)
  | _ => none

/-- A sign that ends the name of a property. -/
def endsProperty (c : Char) : Bool :=
  c == '\x7d' || c == '(' || c == ')' || c == '\x7b' || c == '|'

/-- A property by name, from after `\p` or `\P`, and whether it is negated, with the text after
its closing brace. -/
def readProperty? (negated : Bool) (cs : List Char) :
    Except PatternError (Option ((Property × Bool) × List Char)) :=
  match cs with
  | '\x7b' :: braced =>
    let (negated, braced) := match braced with
      | '^' :: rest => (!negated, rest)
      | _ => (negated, braced)
    let name := braced.takeWhile (!endsProperty ·)
    let unknown := PatternError.unknownProperty (String.ofList name)
    match braced.dropWhile (!endsProperty ·) with
    | '\x7d' :: rest =>
      match Property.ofName? (String.ofList name) with
      | some p => .ok (some ((p, negated), rest))
      | none => .error unknown
    | _ :: _ => .error unknown
    | [] => .error (.unknownProperty (String.ofList name.dropLast))
  | _ => .ok none

end Highlight.Regex
