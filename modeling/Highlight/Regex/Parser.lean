import Highlight.Regex.Caseless
import Highlight.Regex.GroupName
import Highlight.Regex.Repetition
import Highlight.Regex.SetReader

/-!
# Reading patterns

The text of a pattern is read from left to right. The reader keeps the text still to be read,
the number of groups opened so far, those of them still open, their names, and the greatest
group that was referred to by number; whether that group exists is known only at the end.

Options such as `(?i)` hold to the end of the group they stand in, alternatives included.
-/

namespace Highlight.Regex

/-- Options that change how a pattern is read. -/
structure Options where
  /-- Case does not matter. -/
  anyCase : Bool := false
  /-- Blanks and comments in the pattern do not count. -/
  spaced : Bool := false
  /-- The dot matches line ends too. -/
  lineEnds : Bool := false

/-- What the reader keeps. -/
structure Reading where
  /-- The text still to be read. -/
  rest : List Char
  /-- The groups opened so far. -/
  groups : Nat := 0
  /-- Those of them that are not closed yet. -/
  unclosed : List Nat := []
  /-- The groups with names, latest first. -/
  names : List (String × Nat) := []
  /-- The greatest group referred to by number. -/
  referred : Nat := 0

/-- The reader's steps. -/
abbrev Read := EStateM PatternError Reading

namespace Read

/-- The text still to be read. -/
def rest : Read (List Char) := return (← get).rest

/-- Goes on reading at `cs`. -/
def goTo (cs : List Char) : Read Unit := modify (fun r => { r with rest := cs })

/-- Reads from a text, and goes on after that. -/
def run {α : Type} (step : Except PatternError (α × List Char)) : Read α :=
  match step with
  | .ok (a, rest) => do
    goTo rest
    return a
  | .error e => throw e

/-- Opens a group, and returns its number. -/
def openGroup : Read Nat :=
  modifyGet (fun r =>
    let index := r.groups + 1
    (index, { r with groups := index, unclosed := index :: r.unclosed }))

/-- Closes a group. -/
def closeGroup (index : Nat) : Read Unit :=
  modify (fun r => { r with unclosed := r.unclosed.erase index })

/-- A reference to some groups. -/
def reference (o : Options) (groups : List Nat) : Read Term := do
  let unclosed := (← get).unclosed
  return .back groups o.anyCase (groups.any unclosed.contains)

/-- A reference to a group by its number, which need not be opened yet. -/
def numbered (o : Options) (group : Nat) : Read Term := do
  modify (fun r => { r with referred := max r.referred group })
  reference o [group]

end Read

/-! ## Comments and blanks -/

/-- The text after a comment, from after `(?#`. -/
def afterComment? : List Char → Option (List Char)
  | '\\' :: _ :: rest => afterComment? rest
  | ')' :: rest => some rest
  | _ :: rest => afterComment? rest
  | [] => none

/-- The text without comments at its front, and without blanks if these do not count. -/
def skipped (spaced : Bool) : Nat → List Char → Except PatternError (List Char)
  | 0, cs => .ok cs
  | fuel + 1, cs =>
    match cs with
    | '(' :: '?' :: '#' :: rest =>
      match afterComment? rest with
      | some rest => skipped spaced fuel rest
      | none => .error .endInGroup
    | '#' :: rest =>
      if spaced then skipped spaced fuel ((rest.dropWhile (· != '\n')).drop 1) else .ok cs
    | c :: rest =>
      if spaced && (c == ' ' || c == '\t' || c == '\n' || c == '\r' || c == '\x0c') then
        skipped spaced fuel rest
      else .ok cs
    | [] => .ok []

/-- Passes over comments, and over blanks if these do not count. -/
def skip (o : Options) : Read Unit := do
  let cs ← Read.rest
  Read.run ((skipped o.spaced (cs.length + 1) cs).map ((), ·))

/-! ## Escapes -/

/-- A condition on a place that a letter after a backslash stands for. -/
def placeOf? : Char → Option Place
  | 'A' => some .textStart
  | 'z' => some .textEnd
  | 'Z' => some .lastLineEnd
  | 'G' => some .searchStart
  | 'b' => some .wordEdge
  | 'B' => some .noWordEdge
  | _ => none

/-- The group that digits refer to, with the text after them. Digits are a reference if there
are that many groups so far, or if the number has one digit. -/
def readIndex? (groups : Nat) (cs : List Char) : Option (Nat × List Char) :=
  let (n, _, rest) := readDigits 10 cs.length cs
  if n ≠ 0 ∧ cs.head? ≠ some '0' ∧ n ≤ 1000 ∧ (n ≤ groups ∨ n ≤ 9) then some (n, rest) else none

/-- The further bytes of a character, which are escapes, too. -/
def readFurtherBytes (o : Options) : Nat → Read (List Nat)
  | 0 => return []
  | fuel + 1 => do
    skip o
    let written ← match ← Read.rest with
      | '\\' :: 'x' :: cs => Read.run (readHex cs)
      | '\\' :: c :: cs =>
        if '0' ≤ c ∧ c ≤ '7' ∧ (readIndex? (← get).groups (c :: cs)).isNone then
          Read.run (readOctal (c :: cs))
        else throw .missingByte
      | _ => throw .missingByte
    match written with
    | .byte n _ => return n :: (← readFurtherBytes o fuel)
    | _ => throw .missingByte

/-- The pattern of a character that is written somehow. -/
def ofWritten (o : Options) : Written → Read Term
  | .char c => return .text [c] o.anyCase
  | .code n =>
    if n.isValidChar then return .text [Char.ofNat n] o.anyCase
    else if n > 0x10ffff then throw .tooBigCodePoint
    else return .set .empty
  | .byte n _ => do
    let others ← readFurtherBytes o (sizeByLead n - 1)
    match charOfBytes? (n :: others) with
    | some c => return .text [c] o.anyCase
    | none => throw .codePoint

/-- A reference that is written in brackets, from after its opening sign. A group inside another
is never deeper than a reference to it. -/
def readNamed (o : Options) (closing : Char) (cs : List Char) : Read Term := do
  let written ← Read.run (GroupName.readReference closing cs)
  let r ← get
  let t ← match written.group with
    | .name text =>
      match (r.names.filter (·.1 == text)).map (·.2) with
      | [] => throw (.unknownName text)
      | groups => Read.reference o groups
    | .number n => if n = 0 then throw .unknownGroup else Read.numbered o n
    | .back n => if n > r.groups then throw .unknownGroup else Read.numbered o (r.groups + 1 - n)
    | .on n => Read.numbered o (r.groups + n)
  return if written.depth = 0 then t else .never

/-- The pattern of a property. -/
def ofProperty (p : Property) (negated : Bool) : Term :=
  .set (if negated then .compl (.property p false) else .property p false)

/-- What an escape stands for, from after its backslash. Outside a set, `\w` is what words are
parted by. -/
def readEscape (o : Options) (c : Char) (cs : List Char) : Read Term := do
  match placeOf? c, propertyOf? c, control? c with
  | some p, _, _ =>
    Read.goTo cs
    return .place p
  | _, some (p, negated), _ =>
    Read.goTo cs
    return ofProperty (if p = .word then .wordSign else p) negated
  | _, _, some x =>
    Read.goTo cs
    return .text [x] o.anyCase
  | none, none, none =>
    let itself : Read Term := do
      Read.goTo cs
      return .text [c] o.anyCase
    match c, cs with
    | 'x', cs => ofWritten o (← Read.run (readHex cs))
    | 'u', cs => ofWritten o (← Read.run (readUnit cs))
    | 'k', '<' :: rest => readNamed o '>' rest
    | 'k', '\'' :: rest => readNamed o '\'' rest
    | c, cs =>
      if c == 'p' || c == 'P' then
        match readProperty? (c == 'P') cs with
        | .ok (some ((p, negated), rest)) =>
          Read.goTo rest
          return ofProperty p negated
        | .ok none => itself
        | .error e => throw e
      else match readIndex? (← get).groups (c :: cs) with
        | some (n, rest) =>
          Read.goTo rest
          Read.numbered o n
        | none =>
          if '0' ≤ c ∧ c ≤ '7' then ofWritten o (← Read.run (readOctal (c :: cs))) else itself

/-! ## Groups -/

/-- Options from after `(?`: the options, and whether they are followed by a colon, or by the
closing parenthesis. -/
def readOptions (o : Options) (off : Bool) :
    List Char → Except PatternError ((Options × Bool) × List Char)
  | [] => .error .endInGroup
  | ':' :: rest => .ok ((o, true), rest)
  | ')' :: rest => .ok ((o, false), rest)
  | '-' :: rest => readOptions o true rest
  | 'i' :: rest => readOptions { o with anyCase := !off } off rest
  | 'm' :: rest => readOptions { o with lineEnds := !off } off rest
  | 'x' :: rest => readOptions { o with spaced := !off } off rest
  | _ :: _ => .error .groupOption

/-- The fault of a call such as `(*name)`, from after its star: nothing can be called. -/
def faultOfCall (cs : List Char) : PatternError :=
  let ends := fun (c : Char) => c == ')' || c == '[' || c == '\x7b'
  let name := cs.takeWhile (!ends ·)
  if name.length = cs.length then .openCall
  else if name.all (fun c => c.isAlphanum || c == '_') && name.head?.any (!·.isDigit) then
    .unknownCallName
  else .invalidCallName

/-- Goes past the parenthesis that closes a group. -/
def closeParenthesis : Read Unit := do
  match ← Read.rest with
  | ')' :: rest => Read.goTo rest
  | _ => throw .openParenthesis

/-! ## Patterns -/

/-- How many patterns may stand inside of each other. Alternatives and their parts count one by
one, and so do signs of repetition that follow each other. -/
def depthLimit : Nat := 4096

/-- A pattern with the signs of repetition that follow it, of which there may be `room` at most.
A pattern in bare parentheses can be repeated whatever it is. -/
def readRepeated (o : Options) : (room : Nat) → (t : Term) → (isBare : Bool) → Read Term
  | room, t, isBare => do
    skip o
    match Repetition.read? (← Read.rest) with
    | .ok (some (r, rest)) =>
      if t.isRigid && !isBare then throw .notRepeatable
      match room with
      | 0 => throw .tooDeep
      | room + 1 =>
        Read.goTo rest
        readRepeated o room (r.apply t) false
    | .ok none => return if isBare then .bare t else t
    | .error e => throw e

mutual

/-- Alternatives up to the end of the group, or of the text. `depth` is how many patterns stand
around them; `isHead` tells that parentheses in front of the first one are kept. -/
def readAlternatives : Nat → (depth : Nat) → (inGroup isHead : Bool) → Options → Read Term
  | 0, _, _, _, _ => throw .openParenthesis
  | fuel + 1, depth, inGroup, isHead, o => do
    if depthLimit < depth + 2 then throw .tooDeep
    let a := Term.branch (← readParts fuel depth inGroup isHead o)
    match ← Read.rest with
    | '|' :: rest =>
      Read.goTo rest
      return .alt a (← readAlternatives fuel depth inGroup false o)
    | _ => return a

/-- The parts of one alternative. -/
def readParts : Nat → (depth : Nat) → (inGroup isHead : Bool) → Options → Read (List Term)
  | 0, _, _, _, _ => throw .openParenthesis
  | fuel + 1, depth, inGroup, isHead, o => do
    skip o
    match ← Read.rest with
    | [] => return []
    | '|' :: _ => return []
    | ')' :: _ => if inGroup then return [] else throw .closeParenthesis
    | cs =>
      match Repetition.read? cs with
      | .ok (some _) => throw .nothingToRepeat
      | .error e => throw e
      | .ok none =>
        let (t, isBare) ← readAtom fuel (depth + 2) inGroup o cs
        let t ← readRepeated o (depthLimit - (depth + 2)) t (isBare && isHead)
        return t :: (← readParts fuel depth inGroup false o)

/-- What stands before a sign of repetition, and whether it is in bare parentheses. -/
def readAtom : Nat → (depth : Nat) → (inGroup : Bool) → Options → List Char → Read (Term × Bool)
  | 0, _, _, _, _ => throw .openParenthesis
  | fuel + 1, depth, inGroup, o, cs => do
    let one := fun (t : Term) (rest : List Char) => do
      Read.goTo rest
      return (t, false)
    match cs with
    | '(' :: '?' :: rest => readSpecial fuel depth inGroup o rest
    | '(' :: '*' :: rest => throw (faultOfCall rest)
    | '(' :: rest =>
      Read.goTo rest
      return (← readCapture fuel depth o, false)
    | '[' :: rest =>
      let w ← Read.run (WrittenSet.ofText (depthLimit - depth) rest)
      return (if o.anyCase then .setAnyCase w.negated w.inside else .set w.toSet, false)
    | '\\' :: [] => throw .endAtEscape
    | '\\' :: c :: rest => return (← readEscape o c rest, false)
    | '.' :: rest => one (.any o.lineEnds) rest
    | '^' :: rest => one (.place .lineStart) rest
    | '$' :: rest => one (.place .lineEnd) rest
    | c :: rest => one (.text [c] o.anyCase) rest
    | [] => return (.empty, false)

/-- A group that is remembered, from after its head. -/
def readCapture : Nat → (depth : Nat) → Options → Read Term
  | 0, _, _ => throw .openParenthesis
  | fuel + 1, depth, o => do
    let index ← Read.openGroup
    let body ← readAlternatives fuel depth true true o
    closeParenthesis
    Read.closeGroup index
    return .group index body

/-- A group that begins with `(?`, from after that, and whether its parentheses are bare. -/
def readSpecial : Nat → (depth : Nat) → (inGroup : Bool) → Options → List Char →
    Read (Term × Bool)
  | 0, _, _, _, _ => throw .openParenthesis
  | fuel + 1, depth, inGroup, o, cs => do
    let body := fun (rest : List Char) (isHead : Bool) (o : Options) => do
      Read.goTo rest
      let t ← readAlternatives fuel depth true isHead o
      closeParenthesis
      return t
    let named := fun (closing : Char) (rest : List Char) => do
      let text ← Read.run (GroupName.readGiven closing rest)
      modify (fun r => { r with names := (text, r.groups + 1) :: r.names })
      return (← readCapture fuel depth o, false)
    match cs with
    | [] => throw .endInGroup
    | ':' :: rest => return (← body rest false o, true)
    | '=' :: rest => return (.ahead (← body rest true o) false, false)
    | '!' :: rest => return (.ahead (← body rest true o) true, false)
    | '>' :: rest => return (.atomic (← body rest true o), false)
    | '<' :: [] => throw .openParenthesis
    | '<' :: '=' :: rest => return (.behind (← body rest true o) false, false)
    | '<' :: '!' :: rest => return (.behind (← body rest true o) true, false)
    | '<' :: rest => named '>' rest
    | '\'' :: rest => named '\'' rest
    | ')' :: _ => throw .groupOption
    | cs =>
      let (o, hasBody) ← Read.run (readOptions o false cs)
      if hasBody then return (.optioned (← body (← Read.rest) false o), false)
      else return (.optioned (← readAlternatives fuel depth inGroup false o), false)

end

/-- **Reads a pattern**, and counts its groups. Every step but one in four uses up a character,
so four steps for each of them are enough. -/
def parse (text : String) : Except PatternError (Term × Nat) :=
  let cs := text.toList
  match readAlternatives (4 * cs.length + 4) 0 false true {} { rest := cs } with
  | .ok t r => if r.referred > r.groups then .error .unknownGroup else .ok (t, r.groups)
  | .error e _ => .error e

end Highlight.Regex
