import Highlight.Regex.Escape

/-!
# Names of groups

A group may be given a name, and a reference may name the group that it refers to, or number it,
from the first group on or from the place of the reference. A name begins like a word. What
follows is free in the name of a group, while a reference knows signs of its own in it.
-/

namespace Highlight.Regex

/-- **What a reference names**: a group by its name or its number. -/
inductive GroupName where
  /-- A name. -/
  | name (text : String)
  /-- A number, from the first group on. -/
  | number (n : Nat)
  /-- A number, counted back from the last group opened. -/
  | back (n : Nat)
  /-- A number, counted on from the last group opened. -/
  | on (n : Nat)
  deriving DecidableEq, Repr

/-- A reference as it is written. -/
structure WrittenReference where
  /-- The group. -/
  group : GroupName
  /-- How many groups deep what it refers to must lie, counted from the reference. -/
  depth : Nat
  deriving DecidableEq, Repr

namespace GroupName

/-- What is said of a name that ends with the text: the last character counts only if it is the
first one, too. -/
def cutShort (cs : List Char) : String := String.ofList (cs.take (max 1 (cs.length - 1)))

/-- A name that is given to a group, up to its closing sign, and the text after it. -/
def readGiven (closing : Char) (cs : List Char) : Except PatternError (String × List Char) :=
  match cs with
  | [] => .error .emptyName
  | first :: others =>
    let ends := fun (c : Char) => c == closing || c == ')'
    let name := first :: others.takeWhile (!ends ·)
    let after := others.dropWhile (!ends ·)
    let faulty := if after.length ≤ 1 then String.ofList cs else String.ofList name
    if first = closing then .error .emptyName
    else if first.isDigit ∨ first = '-' ∨ first = '+' then .error (.invalidName faulty)
    else if !Unicode.isWordSign first then .error (.invalidNameChar faulty)
    else match after with
      | [] => .error (.invalidName (cutShort cs))
      | c :: rest =>
        if c = closing then .ok (String.ofList name, rest)
        else .error (.invalidName (String.ofList name))

/-- The fault of a name in a reference, if it has one. A number holds digits, and at least one; a
name holds characters of words. What follows a stray sign in a number is looked at as a name. -/
def fault? (first : Char) (others : List Char) (isNumber hasDigits isClosed : Bool) :
    Option (String → PatternError) :=
  let isStrange := fun (c : Char) => !Unicode.isWordSign c
  if isNumber then
    match others.dropWhile Char.isDigit with
    | _ :: later => some (if later.any isStrange then .invalidNameChar else .invalidName)
    | [] => if isClosed && !hasDigits then some .invalidName else none
  else if others.any isStrange then some .invalidNameChar
  else if isStrange first then some .invalidName
  else none

/-- **A reference**, from after its opening sign, and the text after it. -/
def readReference (closing : Char) (cs : List Char) :
    Except PatternError (WrittenReference × List Char) := do
  match cs with
  | [] => throw .emptyName
  | first :: others =>
    if first = closing then throw .emptyName
    let ends := fun (c : Char) => c == closing || c == ')' || c == '+' || c == '-'
    let body := others.takeWhile (!ends ·)
    let after := others.dropWhile (!ends ·)
    let name := first :: body
    let isRelative := first == '-' || first == '+'
    let isNumber := first.isDigit || isRelative
    let digits := if isRelative then body else name
    let invalid := PatternError.invalidName (String.ofList cs)
    if let some fault := fault? first body isNumber (!digits.isEmpty) (!after.isEmpty) then
      throw (fault (if after.isEmpty then cutShort cs else String.ofList name))
    let (depth, rest) ← match after with
      | [] => throw invalid
      | c :: rest =>
        if c = closing then pure (0, rest)
        else if c = ')' then throw invalid
        else if rest.isEmpty then throw (.invalidNameChar (String.ofList name))
        else
          let (depth, count, rest) := readDigits 10 rest.length rest
          match rest with
          | c :: rest => if count = 0 || c != closing then throw invalid else pure (depth, rest)
          | [] => throw invalid
    if isNumber then
      let (n, _, _) := readDigits 10 digits.length digits
      if n ≥ 1 <<< 31 then throw .tooBigNumber
      else if isRelative && n = 0 then throw invalid
      else if first = '-' then return (⟨.back n, depth⟩, rest)
      else if first = '+' then return (⟨.on n, depth⟩, rest)
      else return (⟨.number n, depth⟩, rest)
    else return (⟨.name (String.ofList name), depth⟩, rest)

end GroupName

end Highlight.Regex
