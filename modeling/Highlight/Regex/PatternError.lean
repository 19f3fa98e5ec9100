import Highlight.Text.Bytes

/-!
# Faults of patterns

Why a text is no pattern, and how that is said. A message that quotes a name quotes no more than
its first thirty bytes. Where the thirtieth byte falls inside a character there is no such text,
and the message only says so.
-/

namespace Highlight.Regex

/-- **Why a text is no pattern.** -/
inductive PatternError where
  /-- A parenthesis is not closed. -/
  | openParenthesis
  /-- A parenthesis is closed that was not opened. -/
  | closeParenthesis
  /-- A set of characters is not closed. -/
  | openSet
  /-- A set of characters holds nothing. -/
  | emptySet
  /-- A range ends before it begins. -/
  | emptyRange
  /-- A range begins in something that is no character. -/
  | rangeStart
  /-- A range ends in something that is no character. -/
  | rangeEnd
  /-- There is nothing to repeat. -/
  | nothingToRepeat
  /-- What stands before a sign of repetition may not be repeated. -/
  | notRepeatable
  /-- A bound of a repetition is too great. -/
  | repetitionBound
  /-- The text ends after a backslash. -/
  | endAtEscape
  /-- The text ends inside the head of a group. -/
  | endInGroup
  /-- A group begins in an unknown way. -/
  | groupOption
  /-- A group is referred to that does not exist. -/
  | unknownGroup
  /-- A name is referred to that no group has. -/
  | unknownName (name : String)
  /-- A group has no name where it should have one. -/
  | emptyName
  /-- A group has a name that is none. -/
  | invalidName (name : String)
  /-- A character may not stand in a name. -/
  | invalidNameChar (name : String)
  /-- A property is unknown. -/
  | unknownProperty (name : String)
  /-- A bracket names no property. -/
  | unknownBracket
  /-- A code point, or a character written byte by byte, does not exist. -/
  | codePoint
  /-- A code point is beyond the last one. -/
  | tooBigCodePoint
  /-- A code point has too many digits. -/
  | tooLongCodePoint
  /-- A character that is written byte by byte lacks some of them. -/
  | missingByte
  /-- A number is too great. -/
  | tooBigNumber
  /-- A call is not finished. -/
  | openCall
  /-- A call has a name that is none. -/
  | invalidCallName
  /-- A call has a name that nothing has. -/
  | unknownCallName
  /-- A pattern may not stand behind. -/
  | invalidBehind
  /-- Too much stands inside of each other. -/
  | tooDeep
  deriving DecidableEq, Repr

namespace PatternError

/-- The first thirty bytes of a text, and dots if there are more; none if they end inside a
character. -/
def cutName? (name : String) : Option String :=
  if name.utf8ByteSize ≤ 30 then some name
  else (Text.before? name 30).map (· ++ "...")

/-- What is wrong, in words; none where a name cannot be cut. -/
def wording? : PatternError → Option String
  | openParenthesis => "end pattern with unmatched parenthesis"
  | closeParenthesis => "unmatched close parenthesis"
  | openSet => "premature end of char-class"
  | emptySet => "empty char-class"
  | emptyRange => "empty range in char class"
  | rangeStart => "unmatched range specifier in char-class"
  | rangeEnd => "char-class value at end of range"
  | nothingToRepeat => "target of repeat operator is not specified"
  | notRepeatable => "target of repeat operator is invalid"
  | repetitionBound => "too big number for repeat range"
  | endAtEscape => "end pattern at escape"
  | endInGroup => "end pattern in group"
  | groupOption => "undefined group option"
  | unknownGroup => "invalid backref number/name"
  | unknownName name => (cutName? name).map (fun name => "undefined name <" ++ name ++ "> reference")
  | emptyName => "group name is empty"
  | invalidName name => (cutName? name).map (fun name => "invalid group name <" ++ name ++ ">")
  | invalidNameChar name =>
    (cutName? name).map (fun name => "invalid char in group name <" ++ name ++ ">")
  | unknownProperty name =>
    (cutName? name).map (fun name => "invalid character property name \x7b" ++ name ++ "\x7d")
  | unknownBracket => "invalid POSIX bracket type"
  | codePoint => "invalid code point value"
  | tooBigCodePoint => "too big wide-char value"
  | tooLongCodePoint => "too long wide-char value"
  | missingByte => "too short multibyte string"
  | tooBigNumber => "too big number"
  | openCall => "invalid callout pattern"
  | invalidCallName => "invalid callout name"
  | unknownCallName => "undefined callout name"
  | invalidBehind => "invalid pattern in look-behind"
  | tooDeep => "parse depth limit over"

/-- **The text of a fault.** -/
def message (e : PatternError) : String :=
  match e.wording? with
  | some wording => "Oniguruma error: " ++ wording
  | none => "Onig error string was invalid UTF-8"

end PatternError

end Highlight.Regex
