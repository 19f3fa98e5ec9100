import Highlight.FontStyle

/-!
# Attributes of a token

What an editor needs to know of a token beside its text, and the word of 32 bits it is packed
into. From the lowest bit up, the word holds the language (8 bits), the kind of token (2), the
flag for balanced brackets (1), the font style (4), and the numbers of the foreground (9) and
background colours (8).

Attributes are **merged** while descending a scope path: what an inner scope does not set stays
as it was. Language 0 and colour 0 mean *not set*.
-/

namespace Highlight

/-- The kinds of token that matter to an editor, for instance when it closes brackets. -/
inductive TokenKind where
  /-- Anything else. -/
  | other
  /-- A comment. -/
  | comment
  /-- A string. -/
  | string
  /-- A regular expression. -/
  | regex
  deriving DecidableEq, Repr

namespace TokenKind

/-- The two bits of a kind. -/
def bits : TokenKind → BitVec 2
  | other => 0
  | comment => 1
  | string => 2
  | regex => 3

/-- The kind of two bits. -/
def ofBits (b : BitVec 2) : TokenKind :=
  if b = 1 then comment else if b = 2 then string else if b = 3 then regex else other

/-- The name of a kind. -/
def describe : TokenKind → String
  | other => "Other"
  | comment => "Comment"
  | string => "String"
  | regex => "RegEx"

@[simp] theorem ofBits_bits (k : TokenKind) : ofBits k.bits = k := by
  cases k <;> rfl

end TokenKind

/-- **The attributes of a token.** -/
structure TokenAttributes where
  /-- The language. -/
  language : BitVec 8
  /-- The kind. -/
  kind : TokenKind
  /-- Brackets in the token are to be balanced. -/
  balanced : Bool
  /-- The font style. -/
  fontStyle : FontStyle
  /-- The number of the foreground colour. -/
  foreground : BitVec 9
  /-- The number of the background colour. -/
  background : BitVec 8
  deriving DecidableEq, Repr

/-- What is to be merged into attributes. Numbers that are 0 are not set. -/
structure AttributeChange where
  /-- The language. -/
  language : Nat := 0
  /-- The kind. -/
  kind : Option TokenKind := none
  /-- The flag for balanced brackets. -/
  balanced : Option Bool := none
  /-- The font style. -/
  fontStyle : Option FontStyle := none
  /-- The number of the foreground colour. -/
  foreground : Nat := 0
  /-- The number of the background colour. -/
  background : Nat := 0

namespace TokenAttributes

/-- The packed word. -/
def word (a : TokenAttributes) : BitVec 32 :=
  a.background ++ a.foreground ++ a.fontStyle.flags ++ BitVec.ofBool a.balanced ++ a.kind.bits ++
    a.language

/-- The attributes that a word packs. -/
def ofWord (w : BitVec 32) : TokenAttributes where
  language := w.extractLsb' 0 8
  kind := .ofBits (w.extractLsb' 8 2)
  balanced := w.getLsbD 10
  fontStyle := ⟨w.extractLsb' 11 4⟩
  foreground := w.extractLsb' 15 9
  background := w.extractLsb' 24 8

/-- Attributes of which nothing is set. -/
def blank : TokenAttributes := ofWord 0

/-- **The attributes with a change merged in.** A number keeps its lowest bits, as many as its
field has. -/
def merge (a : TokenAttributes) (c : AttributeChange) : TokenAttributes where
  language := if c.language ≠ 0 then .ofNat 8 c.language else a.language
  kind := c.kind.getD a.kind
  balanced := c.balanced.getD a.balanced
  fontStyle := c.fontStyle.getD a.fontStyle
  foreground := if c.foreground ≠ 0 then .ofNat 9 c.foreground else a.foreground
  background := if c.background ≠ 0 then .ofNat 8 c.background else a.background

/-- The word in binary, all 32 digits. -/
def binary (a : TokenAttributes) : String :=
  String.ofList ((List.range 32).reverse.map (fun i => if a.word.getLsbD i then '1' else '0'))

/-- The description of attributes, field by field. -/
def describe (a : TokenAttributes) : String :=
  "EncodedTokenAttributes \x7b language_id: " ++ toString a.language.toNat ++
    ", token_type: " ++ a.kind.describe ++
    ", balanced_brackets: " ++ toString a.balanced ++
    ", font_style: " ++ a.fontStyle.describe ++
    ", foreground: " ++ toString a.foreground.toNat ++
    ", background: " ++ toString a.background.toNat ++ " \x7d"

end TokenAttributes

end Highlight
