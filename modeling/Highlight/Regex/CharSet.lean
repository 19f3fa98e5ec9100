import Highlight.Unicode.Folding

/-!
# Sets of characters

The sets that a pattern can write: single characters, ranges, named properties, and what comes
of them by union, intersection and complement. Where case does not matter, a set is closed: it
takes in every character that differs from one of its own in case alone. It is closed as a whole
and before it is complemented, so the complement of a closed set is closed, too.

A search may begin inside a character. The bytes of it that are left are tested one by one, and
for them the complement of a property is not the same as a property that is lacking.
-/

namespace Highlight.Regex

open Unicode (Category)

/-- **A named property of characters.** -/
inductive Property where
  /-- Part of a word. -/
  | word
  /-- Makes up words where a text is parted into words. -/
  | wordSign
  /-- A decimal digit. -/
  | digit
  /-- White space. -/
  | space
  /-- A hexadecimal digit. -/
  | hexDigit
  /-- Alphabetic. -/
  | alphabetic
  /-- Alphabetic or a decimal digit. -/
  | alphanumeric
  /-- Lowercase. -/
  | lower
  /-- Uppercase. -/
  | upper
  /-- Punctuation or a symbol. -/
  | punctuation
  /-- Leaves a mark. -/
  | graphic
  /-- Leaves a mark or is a space. -/
  | printed
  /-- A control character. -/
  | control
  /-- A space or a tab. -/
  | blank
  /-- Below U+0080. -/
  | ascii
  /-- Any character. -/
  | any
  /-- Of one of some general categories. -/
  | categories (ks : List Category)
  deriving DecidableEq, Repr

namespace Property

/-- A character has a property. -/
def holds (c : Char) : Property → Bool
  | word => Unicode.isWord c
  | wordSign => Unicode.isWordSign c
  | digit => Unicode.isDecimal c
  | space => Unicode.isBlank c
  | hexDigit => Unicode.isHexDigit c
  | alphabetic => Unicode.isAlphabetic .sixteen c
  | alphanumeric => Unicode.isAlphabetic .sixteen c || Unicode.isDecimal c
  | lower => Unicode.isLowercase .sixteen c
  | upper => Unicode.isUppercase .sixteen c
  | punctuation => Unicode.isPunctuationOrSymbol c
  | graphic => Unicode.isGraphic c
  | printed => Unicode.isPrinted c
  | control => Unicode.isControl c
  | blank => c == '\t' || Unicode.category .sixteen c == .zs
  | ascii => Unicode.isAscii c
  | any => true
  | categories ks => ks.contains (Unicode.category .sixteen c)

/-- The properties that a bracket such as `[:alpha:]` may name. -/
def bracketNames : List (String × Property) :=
  [("alnum", alphanumeric), ("alpha", alphabetic), ("blank", blank), ("cntrl", control),
   ("digit", digit), ("graph", graphic), ("lower", lower), ("print", printed),
   ("punct", punctuation), ("space", space), ("upper", upper), ("xdigit", hexDigit),
   ("ascii", ascii), ("word", word)]

/-- Letters. -/
def letters : Property := categories [.lu, .ll, .lt, .lm, .lo]

/-- Letters with case. -/
def casedLetters : Property := categories [.lu, .ll, .lt]

/-- Combining marks. -/
def marks : Property := categories [.mn, .mc, .me]

/-- Numbers. -/
def numbers : Property := categories [.nd, .nl, .no]

/-- Punctuation by category. -/
def punctuations : Property := categories [.pc, .pd, .ps, .pe, .pi, .pf, .po]

/-- Symbols. -/
def symbols : Property := categories [.sm, .sc, .sk, .so]

/-- Separators. -/
def separators : Property := categories [.zs, .zl, .zp]

/-- Everything else. -/
def others : Property := categories [.cc, .cf, .cs, .co, .cn]

/-- Further names, in lowercase and without blanks, hyphens and underscores. -/
def longNames : List (String × Property) :=
  [("any", any), ("alphabetic", alphabetic), ("lowercase", lower), ("uppercase", upper),
   ("whitespace", space), ("hexdigit", hexDigit), ("posixpunct", punctuation),
   ("punct", punctuations), ("casedletter", casedLetters), ("lc", casedLetters),
   ("l", letters), ("letter", letters), ("m", marks), ("mark", marks), ("n", numbers),
   ("number", numbers), ("p", punctuations), ("punctuation", punctuations), ("s", symbols),
   ("symbol", symbols), ("z", separators), ("separator", separators), ("c", others),
   ("other", others),
   ("uppercaseletter", categories [.lu]), ("lowercaseletter", categories [.ll]),
   ("titlecaseletter", categories [.lt]), ("modifierletter", categories [.lm]),
   ("otherletter", categories [.lo]), ("nonspacingmark", categories [.mn]),
   ("spacingmark", categories [.mc]), ("enclosingmark", categories [.me]),
   ("decimalnumber", categories [.nd]), ("letternumber", categories [.nl]),
   ("othernumber", categories [.no]), ("connectorpunctuation", categories [.pc]),
   ("dashpunctuation", categories [.pd]), ("openpunctuation", categories [.ps]),
   ("closepunctuation", categories [.pe]), ("initialpunctuation", categories [.pi]),
   ("finalpunctuation", categories [.pf]), ("otherpunctuation", categories [.po]),
   ("mathsymbol", categories [.sm]), ("currencysymbol", categories [.sc]),
   ("modifiersymbol", categories [.sk]), ("othersymbol", categories [.so]),
   ("spaceseparator", categories [.zs]), ("lineseparator", categories [.zl]),
   ("paragraphseparator", categories [.zp]), ("control", control),
   ("format", categories [.cf]), ("surrogate", categories [.cs]),
   ("privateuse", categories [.co]), ("unassigned", categories [.cn])]

/-- The property with a name. Case, blanks, hyphens and underscores do not matter. As a name of
its own, `punct` leaves out the symbols that it takes in between brackets. -/
def ofName? (name : String) : Option Property :=
  let cs := (name.toList.filter (fun c => !(c == ' ' || c == '-' || c == '_'))).map Char.toLower
  let key := String.ofList cs
  ((longNames.lookup key).or (bracketNames.lookup key)).or
    (match cs with
     | [a, b] => (Category.ofCode? a.toUpper b).map (fun k => categories [k])
     | _ => none)

end Property

/-- **A set of characters**, as an expression. -/
inductive CharSet where
  /-- No character. -/
  | empty
  /-- The characters whose code points lie from the first to the last. -/
  | range (first last : Nat)
  /-- The characters with a property, or those without it. -/
  | property (p : Property) (negated : Bool)
  /-- The characters in either set. -/
  | union (a b : CharSet)
  /-- The characters in both sets. -/
  | inter (a b : CharSet)
  /-- The characters not in the set. -/
  | compl (a : CharSet)
  /-- The characters in the set, and those that differ from one of them in case alone. -/
  | closed (a : CharSet)
  deriving DecidableEq, Repr

namespace CharSet

/-- The set of one character. -/
def single (c : Char) : CharSet := range c.toNat c.toNat

/-- The set of some characters. -/
def ofList : List Char → CharSet
  | [] => empty
  | [c] => single c
  | c :: cs => union (single c) (ofList cs)

/-- **A character is in the set.** -/
def contains (c : Char) : CharSet → Bool
  | empty => false
  | range a b => a ≤ c.toNat && c.toNat ≤ b
  | property p negated => p.holds c != negated
  | union a b => a.contains c || b.contains c
  | inter a b => a.contains c && b.contains c
  | compl a => !a.contains c
  | closed a => a.contains c || (Unicode.variants c).any (fun d => a.contains d)

/-- **A stray byte is in the set.** A byte from inside a character has no property and lacks
none, and it lies in no range, so it is only in complements. What makes up words judges it by
the character of its number. -/
def containsByte (n : Nat) : CharSet → Bool
  | empty | range .. => false
  | property p negated => !negated && p = .wordSign && p.holds (Char.ofNat n)
  | union a b => a.containsByte n || b.containsByte n
  | inter a b => a.containsByte n && b.containsByte n
  | compl a => !a.containsByte n
  | closed a => a.containsByte n

end CharSet

end Highlight.Regex
