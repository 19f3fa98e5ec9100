/-!
# JSON values, read as far as they go

A text that is not well formed need not be refused at once: whoever decodes it may stumble
earlier over a value of the wrong shape, and may pass over a value without looking into it. So
a text is read into a tree in which each fault stands **where reading would meet it**. Decoding
walks that tree in the order of the text and reports whatever comes first.

A scalar can be flawed in a way that matters only to a reader who wants its content – half of a
surrogate pair in a string, a number out of range – and not to one who passes over it. An
`unreadable` value therefore carries both answers.
-/

namespace Highlight.Json

/-- Why a text is not JSON. -/
inductive Fault where
  /-- A character stands where it may not. -/
  | malformed
  /-- The text ends too early. -/
  | ended
  deriving DecidableEq, Repr

/-- The key of a member. A flawed key still separates members, but has no text. -/
structure Key where
  /-- The text of the key. -/
  text : String
  /-- What is wrong with the key for a reader who wants its text. -/
  flaw : Option Fault := none

/-- **A JSON value**, possibly broken off. -/
inductive Value where
  /-- The value `null`. -/
  | null
  /-- A truth value. -/
  | bool (b : Bool)
  /-- A number without fraction or exponent that fits a word of 64 bits, signed if negative. -/
  | integer (n : Int)
  /-- Any other number. -/
  | real (x : Float)
  /-- A string. -/
  | string (s : String)
  /-- A list: its items, and the fault met after the last of them. -/
  | array (items : List Value) (broken : Option Fault)
  /-- An object: its members in order, and the fault met after the last of them. -/
  | object (members : List (Key × Value)) (broken : Option Fault)
  /-- A value whose content cannot be had: the fault met by reading it, and the fault met by
  passing over it, if any. -/
  | unreadable (onRead : Fault) (onSkip : Option Fault)

/-- **A text read as JSON**: its value, and the fault of what follows the value. -/
structure Document where
  /-- The value. -/
  value : Value
  /-- The fault met after the value. -/
  trailing : Option Fault

namespace Value

mutual

/-- The fault met by passing over a value. Depth and ranges do not matter here. -/
def skipFault? : Value → Option Fault
  | array items broken => (skipItems? items).or broken
  | object members broken => (skipMembers? members).or broken
  | unreadable _ onSkip => onSkip
  | _ => none

/-- The first fault met by passing over items. -/
def skipItems? : List Value → Option Fault
  | [] => none
  | v :: vs => (skipFault? v).or (skipItems? vs)

/-- The first fault met by passing over members. -/
def skipMembers? : List (Key × Value) → Option Fault
  | [] => none
  | (_, v) :: ms => (skipFault? v).or (skipMembers? ms)

end

mutual

/-- The fault met by reading a value in full, where at most `room` nested lists and objects may
be open. -/
def readFault? (room : Nat) : Value → Option Fault
  | array items broken =>
    if room ≤ 1 then some .malformed else (readItems? (room - 1) items).or broken
  | object members broken =>
    if room ≤ 1 then some .malformed else (readMembers? (room - 1) members).or broken
  | unreadable onRead _ => some onRead
  | _ => none

/-- The first fault met by reading items in full. -/
def readItems? (room : Nat) : List Value → Option Fault
  | [] => none
  | v :: vs => (readFault? room v).or (readItems? room vs)

/-- The first fault met by reading members in full. -/
def readMembers? (room : Nat) : List (Key × Value) → Option Fault
  | [] => none
  | (k, v) :: ms => (k.flaw.or (readFault? room v)).or (readMembers? room ms)

end

end Value

end Highlight.Json
