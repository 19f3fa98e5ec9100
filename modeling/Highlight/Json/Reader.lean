import Highlight.Json.Value
import Highlight.Json.Real
import Highlight.Text.Bytes

/-!
# Reading a text as JSON

The reader never fails: what it cannot read becomes a fault in the tree, at the place where it
stands. A value is returned with the text after it, or without one where reading cannot go on.
-/

namespace Highlight.Json

/-- The characters allowed between tokens. -/
def isGap (c : Char) : Bool := c == ' ' || c == '\n' || c == '\t' || c == '\r'

/-- A text without the gap at its front. -/
def afterGap (cs : List Char) : List Char := cs.dropWhile isGap

/-- A value broken off by a fault. -/
def brokenBy (f : Fault) : Value := .unreadable f (some f)

/-- What was read, and the text after it if reading can go on. -/
abbrev Step := Value × Option (List Char)

/-- A step that cannot go on. -/
def stopped (f : Fault) : Step := (brokenBy f, none)

/-- The fault of finding `cs` where something else is due. -/
def faultAt (cs : List Char) : Fault := if cs.isEmpty then .ended else .malformed

/-! ## Strings -/

/-- The value of a hexadecimal digit. -/
def hexDigit? (c : Char) : Option Nat :=
  if c.isDigit then some (c.toNat - '0'.toNat)
  else if 'a' ≤ c ∧ c ≤ 'f' then some (c.toNat - 'a'.toNat + 10)
  else if 'A' ≤ c ∧ c ≤ 'F' then some (c.toNat - 'A'.toNat + 10)
  else none

/-- The number that four hexadecimal digits write. -/
def hexUnit? (a b c d : Char) : Option Nat := do
  return 4096 * (← hexDigit? a) + 256 * (← hexDigit? b) + 16 * (← hexDigit? c) + (← hexDigit? d)

/-- The character a one-letter escape stands for. -/
def escaped? : Char → Option Char
  | '"' => some '"'
  | '\\' => some '\\'
  | '/' => some '/'
  | 'b' => some '\x08'
  | 'f' => some '\x0c'
  | 'n' => some '\n'
  | 'r' => some '\r'
  | 't' => some '\t'
  | _ => none

/-- A piece of a string: a character, or a 16-bit unit written by its number. -/
inductive Piece where
  /-- A character. -/
  | char (c : Char)
  /-- A 16-bit unit. -/
  | unit (n : Nat)

/-- How the pieces of a string end: at the closing quote with a text after it, or by a fault. -/
inductive Ending where
  /-- The closing quote, and the text after it. -/
  | closed (rest : List Char)
  /-- A fault. -/
  | broken (f : Fault)

/-- The fault of a `\u` escape before fewer than four characters. Four bytes are taken before
they are looked at, so the text has ended if it has fewer than that. -/
def shortEscape (rest : List Char) : Fault :=
  if Text.sizeOf rest < 4 then .ended else .malformed

/-- The pieces of a string, from after its opening quote. -/
def pieces : List Char → List Piece × Ending
  | [] => ([], .broken .ended)
  | '"' :: rest => ([], .closed rest)
  | '\\' :: 'u' :: a :: b :: c :: d :: rest =>
    match hexUnit? a b c d with
    | some n =>
      let (ps, e) := pieces rest
      (.unit n :: ps, e)
    | none => ([], .broken .malformed)
  | '\\' :: 'u' :: rest => ([], .broken (shortEscape rest))
  | '\\' :: c :: rest =>
    match escaped? c with
    | some x =>
      let (ps, e) := pieces rest
      (.char x :: ps, e)
    | none => ([], .broken .malformed)
  | '\\' :: [] => ([], .broken .ended)
  | c :: rest =>
    if c.toNat < 0x20 then ([], .broken .malformed)
    else
      let (ps, e) := pieces rest
      (.char c :: ps, e)

/-- A unit is the first half of a surrogate pair. -/
def isHighHalf (n : Nat) : Bool := 0xd800 ≤ n && n ≤ 0xdbff

/-- A unit is the second half of a surrogate pair. -/
def isLowHalf (n : Nat) : Bool := 0xdc00 ≤ n && n ≤ 0xdfff

/-- The characters of pieces, where `atEnd` is the fault of a first half that nothing follows.
Halves that do not pair up have no character. -/
def characters (atEnd : Fault) : List Piece → Except Fault (List Char)
  | [] => .ok []
  | .char c :: rest => (characters atEnd rest).map (c :: ·)
  | .unit n :: .unit k :: rest =>
    if isHighHalf n then
      if isLowHalf k then
        (characters atEnd rest).map
          (Char.ofNat (0x10000 + (n - 0xd800) * 0x400 + (k - 0xdc00)) :: ·)
      else .error .malformed
    else if isLowHalf n then .error .malformed
    else (characters atEnd (.unit k :: rest)).map (Char.ofNat n :: ·)
  | .unit n :: rest =>
    if isHighHalf n then .error (if rest.isEmpty then atEnd else .malformed)
    else if isLowHalf n then .error .malformed
    else (characters atEnd rest).map (Char.ofNat n :: ·)

/-- A string, from after its opening quote. -/
def readString (cs : List Char) : Step :=
  let (ps, ending) := pieces cs
  match ending with
  | .closed rest =>
    match characters .malformed ps with
    | .ok text => (.string (String.ofList text), some rest)
    | .error f => (.unreadable f none, some rest)
  | .broken e =>
    match characters e ps with
    | .ok _ => stopped e
    | .error f => (.unreadable f (some e), none)

/-! ## Numbers -/

/-- The values of the digits at the front of a text, and the text after them. -/
def digits (cs : List Char) : List Nat × List Char :=
  ((cs.takeWhile Char.isDigit).map (fun c => c.toNat - '0'.toNat), cs.dropWhile Char.isDigit)

/-- The number that decimal digits write. -/
def ofDigits (ds : List Nat) : Nat := ds.foldl (fun n d => 10 * n + d) 0

/-- A number broken off in front of `cs`. One who passes over it does not tell the end of the
text from a wrong character. -/
def brokenNumber (cs : List Char) : Step :=
  (.unreadable (faultAt cs) (some .malformed), none)

/-- The number with these digits and this exponent, in front of `rest`. -/
def realBefore (negative : Bool) (whole fraction : List Nat) (exponent : Int)
    (rest : List Char) : Step :=
  match Real.ofDigits? negative whole fraction exponent with
  | some x => (.real x, some rest)
  | none => (.unreadable .malformed none, some rest)

/-- The number without fraction or exponent with these digits: an integer if it fits a word. -/
def wholeBefore (negative : Bool) (whole : List Nat) (rest : List Char) : Step :=
  let n := ofDigits whole
  if negative then
    if 0 < n ∧ n ≤ Real.signLimit then (.integer (-(n : Int)), some rest)
    else realBefore true whole [] 0 rest
  else if n < Real.wordLimit then (.integer n, some rest)
  else realBefore false whole [] 0 rest

/-- What may follow the digits of a number: an exponent, from after its letter. -/
def readExponent (negative : Bool) (whole fraction : List Nat) (cs : List Char) : Step :=
  let (down, unsigned) := match cs with
    | '+' :: rest => (false, rest)
    | '-' :: rest => (true, rest)
    | _ => (false, cs)
  match digits unsigned with
  | ([], rest) => brokenNumber rest
  | (ds, rest) =>
    let e : Int := ofDigits ds
    realBefore negative whole fraction (if down then -e else e) rest

/-- A fraction, from after the point. -/
def readFraction (negative : Bool) (whole : List Nat) (cs : List Char) : Step :=
  match digits cs with
  | ([], rest) => brokenNumber rest
  | (ds, 'e' :: rest) => readExponent negative whole ds rest
  | (ds, 'E' :: rest) => readExponent negative whole ds rest
  | (ds, rest) => realBefore negative whole ds 0 rest

/-- A number, from after its sign. -/
def readNumber (negative : Bool) (cs : List Char) : Step :=
  match digits cs with
  | ([], rest) => brokenNumber rest
  | (0 :: _ :: _, _) => stopped .malformed
  | (whole, '.' :: rest) => readFraction negative whole rest
  | (whole, 'e' :: rest) => readExponent negative whole [] rest
  | (whole, 'E' :: rest) => readExponent negative whole [] rest
  | (whole, rest) => wholeBefore negative whole rest

/-! ## Values -/

/-- A word such as `null`, of which `due` is still to come. -/
def readWord (v : Value) : (due cs : List Char) → Step
  | [], cs => (v, some cs)
  | _ :: _, [] => stopped .ended
  | d :: due, c :: cs => if c = d then readWord v due cs else stopped .malformed

/-- The fault of finding `cs` where a value should follow a comma. -/
def itemFault? : List Char → Option Fault
  | [] => some .ended
  | ']' :: _ => some .malformed
  | '}' :: _ => some .malformed
  | _ => none

mutual

/-- A value, from after the gap before it. -/
def readValue : Nat → List Char → Step
  | 0, _ => stopped .malformed
  | fuel + 1, cs =>
    match cs with
    | [] => stopped .ended
    | 'n' :: rest => readWord .null ['u', 'l', 'l'] rest
    | 't' :: rest => readWord (.bool true) ['r', 'u', 'e'] rest
    | 'f' :: rest => readWord (.bool false) ['a', 'l', 's', 'e'] rest
    | '"' :: rest => readString rest
    | '-' :: rest => readNumber true rest
    | '[' :: rest =>
      match afterGap rest with
      | ']' :: rest => (.array [] none, some rest)
      | [] => (.array [] (some .ended), none)
      | rest => readItems fuel [] rest
    | '\x7b' :: rest =>
      match afterGap rest with
      | '\x7d' :: rest => (.object [] none, some rest)
      | rest => readMembers fuel [] rest
    | c :: _ => if c.isDigit then readNumber false cs else stopped .malformed

/-- The items of a list from the next one on, after those read, latest first. -/
def readItems : Nat → List Value → List Char → Step
  | 0, _, _ => stopped .malformed
  | fuel + 1, done, cs =>
    match readValue fuel cs with
    | (v, none) => (.array (v :: done).reverse none, none)
    | (v, some rest) =>
      match afterGap rest with
      | ']' :: rest => (.array (v :: done).reverse none, some rest)
      | ',' :: rest =>
        match itemFault? (afterGap rest) with
        | some f => (.array (brokenBy f :: v :: done).reverse none, none)
        | none => readItems fuel (v :: done) (afterGap rest)
      | rest => (.array (v :: done).reverse (some (faultAt rest)), none)

/-- The members of an object from the next one on, after those read, latest first. -/
def readMembers : Nat → List (Key × Value) → List Char → Step
  | 0, _, _ => stopped .malformed
  | fuel + 1, done, cs =>
    match cs with
    | '"' :: rest =>
      match readString rest with
      | (.string text, some rest) => readMember fuel done ⟨text, none⟩ (afterGap rest)
      | (.unreadable f none, some rest) => readMember fuel done ⟨"", some f⟩ (afterGap rest)
      | (.unreadable f (some e), _) =>
        (.object ((⟨"", some f⟩, brokenBy e) :: done).reverse none, none)
      | _ => (.object done.reverse (some .malformed), none)
    | cs => (.object done.reverse (some (faultAt cs)), none)

/-- A member, from after its key, and those behind it. -/
def readMember : Nat → List (Key × Value) → Key → List Char → Step
  | 0, _, _, _ => stopped .malformed
  | fuel + 1, done, key, cs =>
    match cs with
    | ':' :: rest =>
      match readValue fuel (afterGap rest) with
      | (v, none) => (.object ((key, v) :: done).reverse none, none)
      | (v, some rest) =>
        match afterGap rest with
        | '\x7d' :: rest => (.object ((key, v) :: done).reverse none, some rest)
        | ',' :: rest => readMembers fuel ((key, v) :: done) (afterGap rest)
        | rest => (.object ((key, v) :: done).reverse (some (faultAt rest)), none)
    | cs => (.object ((key, brokenBy (faultAt cs)) :: done).reverse none, none)

end

/-- **A text read as JSON.** Every step of the reader but one in three uses a character up, so
three steps for each of them are enough. -/
def Document.ofText (text : String) : Document :=
  let cs := text.toList
  match readValue (3 * cs.length + 3) (afterGap cs) with
  | (v, none) => ⟨v, none⟩
  | (v, some rest) => ⟨v, if (afterGap rest).isEmpty then none else some .malformed⟩

end Highlight.Json
