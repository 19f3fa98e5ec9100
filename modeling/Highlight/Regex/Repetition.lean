import Highlight.Regex.Escape
import Highlight.Regex.Term

/-!
# Signs of repetition

A sign gives bounds and a manner: as often as possible, as rarely as possible, or as often as
possible without second thoughts. A brace that opens no bounds is no sign.
-/

namespace Highlight.Regex

/-- The greatest number of rounds that may be written. -/
def roundLimit : Nat := 100000

/-- The bounds of a repetition, from after its brace, and the text after its closing brace. The
flag tells that there is only one number. -/
def readBounds? (cs : List Char) :
    Except PatternError (Option (Nat × Option Nat × Bool × List Char)) :=
  let (low, lowDigits, rest) := readDigits 10 cs.length cs
  if low > roundLimit then .error .repetitionBound
  else match rest with
    | ',' :: rest =>
      let (high, highDigits, rest) := readDigits 10 rest.length rest
      if high > roundLimit then .error .repetitionBound
      else match rest with
        | '\x7d' :: rest =>
          if highDigits = 0 then
            if lowDigits = 0 then .ok none else .ok (some (low, none, false, rest))
          else .ok (some (low, some high, false, rest))
        | _ => .ok none
    | '\x7d' :: rest =>
      if lowDigits = 0 then .ok none else .ok (some (low, some low, true, rest))
    | _ => .ok none

/-- **How a repetition is carried out.** -/
inductive Manner where
  /-- As often as possible. -/
  | greedy
  /-- As rarely as possible. -/
  | lazy
  /-- As often as possible, without second thoughts. -/
  | possessive
  deriving DecidableEq, Repr

/-- **A sign of repetition.** -/
structure Repetition where
  /-- The least number of rounds. -/
  least : Nat
  /-- The greatest number of rounds. -/
  most : Option Nat
  /-- How it is carried out. -/
  manner : Manner
  deriving DecidableEq, Repr

namespace Repetition

/-- The manner that may be written after a sign of repetition, and the text after it. -/
def readManner (allowLazy allowPossessive : Bool) (cs : List Char) : Manner × List Char :=
  match cs with
  | '?' :: rest => if allowLazy then (.lazy, rest) else (.greedy, cs)
  | '+' :: rest => if allowPossessive then (.possessive, rest) else (.greedy, cs)
  | _ => (.greedy, cs)

/-- A sign of repetition, if there is one, and the text after it. Bounds in the wrong order are
exchanged, and the repetition is then possessive. -/
def read? (cs : List Char) : Except PatternError (Option (Repetition × List Char)) :=
  let sign := fun (least : Nat) (most : Option Nat) (rest : List Char) =>
    let (manner, rest) := readManner true true rest
    .ok (some (⟨least, most, manner⟩, rest))
  match cs with
  | '*' :: rest => sign 0 none rest
  | '+' :: rest => sign 1 none rest
  | '?' :: rest => sign 0 (some 1) rest
  | '\x7b' :: rest =>
    match readBounds? rest with
    | .error e => .error e
    | .ok none => .ok none
    | .ok (some (low, some high, isExact, rest)) =>
      if high < low then .ok (some (⟨high, some low, .possessive⟩, rest))
      else
        let (manner, rest) := readManner (!isExact) false rest
        .ok (some (⟨low, some high, manner⟩, rest))
    | .ok (some (low, none, _, rest)) =>
      let (manner, rest) := readManner true false rest
      .ok (some (⟨low, none, manner⟩, rest))
  | _ => .ok none

/-- **A pattern repeated.** -/
def apply (r : Repetition) (t : Term) : Term :=
  match r.manner with
  | .greedy => t.repeated r.least r.most true
  | .lazy => t.repeated r.least r.most false
  | .possessive => .atomic (t.repeated r.least r.most true)

end Repetition

end Highlight.Regex
