import Highlight.Regex.Escape
import Highlight.Text.Split

/-!
# Reading sets of characters

The inside of brackets is a sequence of tokens. A character waits until the next token, since it
may begin a range; a property does not wait, and nothing ranges from it or to it. A hyphen is a
sign only after a character or a property, and even there it stands for itself at the end of the
set.

A set in a set is added to it. A range that it interrupts is dropped.
-/

namespace Highlight.Regex

/-- **A character in a set**, or a single byte that no character has. -/
structure SetValue where
  /-- The code point, or the byte. -/
  code : Nat
  /-- It is a byte. -/
  isByte : Bool := false
  deriving DecidableEq, Repr

/-- **A token in a set.** -/
inductive SetToken where
  /-- A character. -/
  | value (v : SetValue)
  /-- A set that has a name. -/
  | named (s : CharSet)
  /-- `-` -/
  | hyphen
  /-- `[` -/
  | opening
  /-- `]` -/
  | closing
  /-- `&&` -/
  | both
  /-- The end of the text. -/
  | ending
  deriving DecidableEq, Repr

namespace SetValue

/-- The value of a character. -/
def ofChar (c : Char) : SetValue := ⟨c.toNat, false⟩

/-- It takes one byte. -/
def isShort (v : SetValue) : Bool := v.isByte || v.code < 0x80

/-- The set of a value. No text holds a byte that is no character. -/
def toSet (v : SetValue) : CharSet :=
  if v.isByte && 0x80 ≤ v.code then .empty else .range v.code v.code

/-- The set of a range. Between single bytes it holds characters below U+0080 only. -/
def rangeTo? (low high : SetValue) : Option CharSet :=
  if high.code < low.code then none
  else if low.isShort && high.isShort then some (.range low.code (min high.code 0x7f))
  else some (.range low.code high.code)

end SetValue

namespace SetToken

/-- A byte that is written like the one before. -/
def readByte? (base : Nat) : List Char → Option (Nat × List Char)
  | '\\' :: 'x' :: c :: cs =>
    if base = 16 ∧ c ≠ '\x7b' then
      let (n, _, rest) := readDigits 16 2 (c :: cs)
      some (n, rest)
    else none
  | '\\' :: c :: cs =>
    if base = 8 ∧ '0' ≤ c ∧ c ≤ '7' then
      let (n, _, rest) := readDigits 8 3 (c :: cs)
      some (n, rest)
    else none
  | _ => none

/-- At most so many bytes. -/
def readBytes (base : Nat) : Nat → List Char → List Nat × List Char
  | 0, cs => ([], cs)
  | most + 1, cs =>
    match readByte? base cs with
    | some (n, rest) =>
      let (ns, rest) := readBytes base most rest
      (n :: ns, rest)
    | none => ([], cs)

/-- The character that begins with a byte, and the text after it. -/
def ofByte (first base : Nat) (cs : List Char) : Except PatternError (SetToken × List Char) :=
  let size := sizeByLead first
  let (others, rest) := readBytes base (size - 1) cs
  if size = 1 then .ok (.value ⟨first, true⟩, cs)
  else if others.length + 1 < size then .error .missingByte
  else match charOfBytes? (first :: others) with
    | some c => .ok (.value (.ofChar c), rest)
    | none => .error .codePoint

/-- The token of a character that is written somehow. -/
def ofWritten : Written × List Char → Except PatternError (SetToken × List Char)
  | (.char c, rest) => .ok (.value (.ofChar c), rest)
  | (.code n, rest) => .ok (.value ⟨n, false⟩, rest)
  | (.byte n base, rest) => ofByte n base rest

/-- The token that a backslash and the letter `c` begin. -/
def readEscape (c : Char) (cs : List Char) : Except PatternError (SetToken × List Char) := do
  match propertyOf? c, control? c with
  | some (p, negated), _ => return (.named (.property p negated), cs)
  | none, some x => return (.value (.ofChar x), cs)
  | none, none =>
    match c with
    | 'b' => return (.value (.ofChar '\x08'), cs)
    | 'x' => ofWritten (← readHex cs)
    | 'u' => ofWritten (← readUnit cs)
    | 'p' | 'P' =>
      match ← readProperty? (c == 'P') cs with
      | some ((p, negated), rest) => return (.named (.property p negated), rest)
      | none => return (.value (.ofChar c), cs)
    | _ =>
      if '0' ≤ c ∧ c ≤ '7' then ofWritten (← readOctal (c :: cs))
      else return (.value (.ofChar c), cs)

/-- A text has `:]` ahead, before any bracket that closes a set. -/
def closesBracket : List Char → Bool
  | ':' :: ']' :: _ => true
  | '\\' :: _ :: rest => closesBracket rest
  | ']' :: _ => false
  | _ :: rest => closesBracket rest
  | [] => false

/-- A property in brackets such as `[:alpha:]`, from after `[:`. The brackets may also turn out
to open a set. -/
def readBracket? (cs : List Char) : Except PatternError (Option (CharSet × List Char)) :=
  let (negated, cs) := match cs with
    | '^' :: rest => (true, rest)
    | _ => (false, cs)
  let named? := if cs.length < 7 then none
    else Property.bracketNames.findSome? (fun (name, p) =>
      (Text.after? name.toList cs).map (fun rest => (p, rest)))
  match named? with
  | some (p, ':' :: ']' :: rest) => .ok (some (.property p negated, rest))
  | some _ => .error .unknownBracket
  | none =>
    match (cs.take 22).dropWhile (fun c => c != ':' && c != ']') with
    | ':' :: ']' :: _ => .error .unknownBracket
    | _ => .ok none

/-- **The next token of a set**, and the text after it. -/
def read (cs : List Char) : Except PatternError (SetToken × List Char) := do
  match cs with
  | [] => return (ending, [])
  | ']' :: rest => return (closing, rest)
  | '-' :: rest => return (hyphen, rest)
  | '&' :: '&' :: rest => return (both, rest)
  | '\\' :: [] => throw .endAtEscape
  | '\\' :: c :: rest => readEscape c rest
  | '[' :: ':' :: rest =>
    if closesBracket rest then
      match ← readBracket? rest with
      | some (s, rest) => return (named s, rest)
      | none => return (opening, ':' :: rest)
    else return (opening, ':' :: rest)
  | '[' :: rest => return (opening, rest)
  | c :: rest => return (value (.ofChar c), rest)

end SetToken

/-- **How far the reading of a set has come.** -/
inductive SetState where
  /-- Nothing has been read since the opening bracket or since `&&`. -/
  | start
  /-- A character was read, which may begin a range. -/
  | character (v : SetValue)
  /-- A named set was read. -/
  | named
  /-- A character and a hyphen were read. -/
  | range (low : SetValue)
  /-- A range or a set was read. -/
  | complete
  deriving DecidableEq, Repr

/-- A set while it is read. -/
structure SetReading where
  /-- The set so far, since the last `&&`. -/
  set : CharSet := .empty
  /-- What stands before the last `&&`. -/
  before : Option CharSet := none
  /-- How far the reading has come. -/
  state : SetState := .start

namespace SetReading

/-- Adds a set. -/
def add (r : SetReading) (s : CharSet) : SetReading := { r with set := .union r.set s }

/-- Adds the character that waits. -/
def settle (r : SetReading) : SetReading :=
  match r.state with
  | .character v => r.add v.toSet
  | _ => r

/-- Reads a character. Code points beyond the last one may end a range. -/
def addValue (r : SetReading) (v : SetValue) : Except PatternError SetReading :=
  match r.state with
  | .range low =>
    match low.rangeTo? v with
    | some s => .ok { r.add s with state := .complete }
    | none => .error .emptyRange
  | _ =>
    if v.code ≤ 0x10ffff then .ok { r.settle with state := .character v }
    else .error .tooBigCodePoint

/-- Reads a named set. -/
def addNamed (r : SetReading) (s : CharSet) : Except PatternError SetReading :=
  match r.state with
  | .range _ => .error .rangeEnd
  | _ => .ok { r.settle.add s with state := .named }

/-- Reads a set in brackets. -/
def addSet (r : SetReading) (s : CharSet) : SetReading := { r.settle.add s with state := .complete }

/-- Reads `&&`. -/
def next (r : SetReading) : SetReading :=
  let r := r.settle
  { before := some (r.before.elim r.set (.inter · r.set)) }

/-- The set that was read. -/
def finish (r : SetReading) : CharSet :=
  let r := r.settle
  r.before.elim r.set (.inter · r.set)

/-- Reads a hyphen before the token `next`. -/
def addHyphen (r : SetReading) (next : SetToken) : Except PatternError SetReading :=
  let itself := r.addValue (.ofChar '-')
  match r.state, next with
  | .character _, .closing | .named, .closing | .character _, .both | .named, .both => itself
  | .character v, _ => .ok { r with state := .range v }
  | .named, _ => .error .rangeStart
  | _, _ => itself

end SetReading

/-- A set as it is written. -/
structure WrittenSet where
  /-- The set begins with `^`. -/
  negated : Bool
  /-- The characters inside. -/
  inside : CharSet
  deriving DecidableEq, Repr

namespace WrittenSet

/-- The set that is meant. -/
def toSet (w : WrittenSet) : CharSet := if w.negated then .compl w.inside else w.inside

mutual

/-- **Reads a set** from after its opening bracket. Sets may stand inside each other `depth` times
at most. -/
def read : Nat → (depth : Nat) → List Char → Except PatternError (WrittenSet × List Char)
  | 0, _, _ => .error .openSet
  | _ + 1, 0, _ => .error .tooDeep
  | fuel + 1, depth + 1, cs => do
    let (negated, cs) := match cs with
      | '^' :: rest => (true, rest)
      | _ => (false, cs)
    let (token, rest) ← SetToken.read cs
    let token ←
      if token = .closing then
        if rest.contains ']' then pure (.value (.ofChar ']')) else throw .emptySet
      else pure token
    let (inside, rest) ← readItems fuel depth {} token rest
    return (⟨negated, inside⟩, rest)

/-- The rest of a set, from a token on that is already read. -/
def readItems : Nat → (depth : Nat) → SetReading → SetToken → List Char →
    Except PatternError (CharSet × List Char)
  | 0, _, _, _, _ => .error .openSet
  | fuel + 1, depth, r, token, cs => do
    match token with
    | .ending => throw .openSet
    | .closing => return (r.finish, cs)
    | .value v => goOn fuel depth (← r.addValue v) cs
    | .named s => goOn fuel depth (← r.addNamed s) cs
    | .both => goOn fuel depth r.next cs
    | .opening =>
      let (w, rest) ← read fuel depth cs
      goOn fuel depth (r.addSet w.toSet) rest
    | .hyphen =>
      let (next, rest) ← SetToken.read cs
      readItems fuel depth (← r.addHyphen next) next rest

/-- The rest of a set, from the next token on. -/
def goOn : Nat → (depth : Nat) → SetReading → List Char →
    Except PatternError (CharSet × List Char)
  | 0, _, _, _ => .error .openSet
  | fuel + 1, depth, r, cs => do
    let (token, rest) ← SetToken.read cs
    readItems fuel depth r token rest

end

/-- A set from after its opening bracket, and the text after it. Every third step at least uses
up a character. -/
def ofText (depth : Nat) (cs : List Char) : Except PatternError (WrittenSet × List Char) :=
  read (3 * cs.length + 3) depth cs

end WrittenSet

end Highlight.Regex
