import Highlight.Selector.Matcher

/-!
# Reading selectors

A selector text is cut into tokens – priorities such as `L:`, names, and the signs `,`, `|`,
`-`, `(` and `)`; all else is passed over. The tokens are read as parts between commas. A part
may begin with a priority and is a conjunction of operands; an operand is a list of names, the
negation of an operand, or alternatives in parentheses.

Nothing is refused. An operand that is missing where one is due becomes `Matcher.never`.
-/

namespace Highlight.Selector

/-! ## Tokens -/

/-- A character may begin a name. -/
def startsName (c : Char) : Bool := Unicode.isWord c || c == '.' || c == ':'

/-- A character may stand inside a name. -/
def continuesName (c : Char) : Bool := startsName c || c == '-'

/-- A character is a sign. -/
def isSign (c : Char) : Bool :=
  c == ',' || c == '|' || c == '-' || c == '(' || c == ')'

/-- A character may be the letter of a priority. -/
def isPriorityLetter (c : Char) : Bool := c == 'L' || c == 'R' || c == 'B'

/-- The tokens of a text, given the characters of a name under way, latest first. -/
def tokensFrom : (name text : List Char) → List String
  | [], [] => []
  | name, [] => [String.ofList name.reverse]
  | [], c :: ':' :: rest =>
    if isPriorityLetter c then String.ofList [c, ':'] :: tokensFrom [] rest
    else if startsName c then tokensFrom [':', c] rest
    else if isSign c then String.ofList [c] :: tokensFrom [':'] rest
    else tokensFrom [':'] rest
  | [], c :: rest =>
    if startsName c then tokensFrom [c] rest
    else if isSign c then String.ofList [c] :: tokensFrom [] rest
    else tokensFrom [] rest
  | a :: name, c :: rest =>
    if continuesName c then tokensFrom (c :: a :: name) rest
    else if isSign c then
      String.ofList (a :: name).reverse :: String.ofList [c] :: tokensFrom [] rest
    else String.ofList (a :: name).reverse :: tokensFrom [] rest

/-- **The tokens of a selector text.** -/
def tokens (text : String) : List String := tokensFrom [] text.toList

/-- A token is a name. -/
def isName (token : String) : Bool :=
  token.toList.any (fun c => Unicode.isAlphanumeric c || c == '_' || c == '.' || c == ':')

/-- A token separates alternatives. -/
def isSeparator (token : String) : Bool := token == "|" || token == ","

/-! ## Expressions -/

/-- A conjunction of operands. -/
def conjunction : List Matcher → Matcher
  | [] => .never
  | [m] => m
  | ms => .and ms

/-- A choice between alternatives. -/
def choice : List Matcher → Matcher
  | [m] => m
  | ms => .or ms

/-- The tokens after a closing parenthesis, if there is one. -/
def afterClosing : List String → List String
  | ")" :: rest => rest
  | ts => ts

mutual

/-- An operand, if the tokens begin with one. The first argument bounds the nesting. -/
def operand? : Nat → List String → Option (Matcher × List String)
  | 0, _ => none
  | _ + 1, [] => none
  | fuel + 1, t :: rest =>
    if t = "-" then
      match operand? fuel rest with
      | some (m, rest) => some (.not m, rest)
      | none => some (.never, rest)
    else if t = "(" then
      let (ms, rest) := alternatives fuel rest
      some (choice ms, afterClosing rest)
    else if isName t then
      some (.path ((t :: rest).takeWhile isName), (t :: rest).dropWhile isName)
    else none

/-- As many operands as there are. -/
def operands : Nat → List String → List Matcher × List String
  | 0, ts => ([], ts)
  | fuel + 1, ts =>
    match operand? fuel ts with
    | some (m, rest) =>
      let (ms, rest) := operands fuel rest
      (m :: ms, rest)
    | none => ([], ts)

/-- Conjunctions between separators. Several separators in a row count as one. -/
def alternatives : Nat → List String → List Matcher × List String
  | 0, ts => ([.never], ts)
  | fuel + 1, ts =>
    let (ms, rest) := operands fuel ts
    let m := conjunction ms
    match rest with
    | t :: _ =>
      if isSeparator t then
        let (more, rest) := alternatives fuel (rest.dropWhile isSeparator)
        (m :: more, rest)
      else ([m], rest)
    | [] => ([m], rest)

end

/-- The nesting that some tokens can reach: each of them opens at most one operand, the list of
operands around it and the alternatives around those. -/
def nestingBound (ts : List String) : Nat := 3 * ts.length + 3

/-- The priority that a token writes, if it has the form of one: a single letter and a colon.
Unknown letters stand for no particular priority. -/
def priority? (token : String) : Option Priority :=
  if token.utf8ByteSize = 2 && token.toList.getLast? == some ':' then
    some (if token = "L:" then .left else if token = "R:" then .right else .normal)
  else none

/-- One part: its priority, if it begins with one, and a conjunction. -/
def part (ts : List String) : Part × List String :=
  let (priority, ts) := match ts with
    | t :: rest => match priority? t with
      | some p => (p, rest)
      | none => (.normal, ts)
    | [] => (.normal, ts)
  let (ms, rest) := operands (nestingBound ts) ts
  (⟨priority, conjunction ms⟩, rest)

/-- The parts between commas. What follows a part other than a comma is dropped. -/
def parts : Nat → List String → List Part
  | 0, _ => []
  | _ + 1, [] => []
  | fuel + 1, ts =>
    let (p, rest) := part ts
    p :: (match rest with
      | "," :: rest => parts fuel rest
      | _ => [])

/-- **The parts of a selector text.** Each part but the last ends in a comma, so there are no
more parts than tokens. -/
def parse (text : String) : List Part :=
  let ts := tokens text
  parts (ts.length + 1) ts

end Highlight.Selector
