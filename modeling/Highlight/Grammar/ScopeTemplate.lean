import Highlight.Grammar.Pattern
import Highlight.Unicode.Case

/-!
# Scope names with references

The name of a rule may refer to the groups of the match: `$1` stands for the text of group 1,
`${1:/upcase}` and `${1:/downcase}` for that text with its case changed. Dots at the front of
the text are left out. A reference to a group that does not exist stays as it is written.
-/

namespace Highlight.Grammar

/-- What happens to the case of a text. -/
inductive CaseChange where
  /-- To uppercase. -/
  | up
  /-- To lowercase. -/
  | down
  deriving DecidableEq, Repr

namespace CaseChange

/-- Changes the case of a text. -/
def apply : CaseChange → String → String
  | up, s => Unicode.upper s
  | down, s => Unicode.lower s

/-- The end of a reference with a change of case. -/
def endings : List (List Char × CaseChange) :=
  [(":/downcase\x7d".toList, down), (":/upcase\x7d".toList, up)]

/-- The change that a text begins with, and how many characters that takes. -/
def read? (cs : List Char) : Option (CaseChange × Nat) :=
  (endings.find? (fun e => e.1.isPrefixOf cs)).map (fun e => (e.2, e.1.length))

end CaseChange

/-- **A reference**: its digits and the change of case. -/
structure GroupReference where
  /-- The digits of the group number. -/
  digits : List Char
  /-- The change of case. -/
  change : Option CaseChange
  deriving DecidableEq, Repr

namespace GroupReference

/-- The reference that a text begins with, from after its dollar sign, and how many characters
it takes from there. -/
def read? (cs : List Char) : Option (GroupReference × Nat) :=
  let digits := cs.takeWhile Unicode.isDecimal
  if digits ≠ [] then some (⟨digits, none⟩, digits.length)
  else match cs with
    | '\x7b' :: cs =>
      let digits := cs.takeWhile Unicode.isDecimal
      if digits = [] then none
      else (CaseChange.read? (cs.dropWhile Unicode.isDecimal)).map
        (fun (change, n) => (⟨digits, some change⟩, 1 + digits.length + n))
    | _ => none

/-- The text of a reference after a match, if its group exists. -/
def text? (r : GroupReference) (line : String) (captures : Captures) : Option String :=
  ((Text.index? r.digits).bind (captures.text? line)).map (fun s =>
    let s := String.ofList (s.toList.dropWhile (· == '.'))
    r.change.elim s (·.apply s))

end GroupReference

/-- A piece of a name: a character, or a reference with the text that writes it. -/
inductive NamePiece where
  /-- A character. -/
  | char (c : Char)
  /-- A reference. -/
  | group (written : List Char) (reference : GroupReference)
  deriving DecidableEq, Repr

namespace NamePiece

/-- The pieces of a name. -/
def ofText : List Char → List NamePiece
  | [] => []
  | c :: cs =>
    if c = '$' then
      match GroupReference.read? cs with
      | some (r, n) => .group (c :: cs.take n) r :: ofText (cs.drop n)
      | none => .char c :: ofText cs
    else .char c :: ofText cs
termination_by cs => cs.length
decreasing_by
  all_goals simp only [List.length_cons, List.length_drop]
  all_goals omega

/-- A piece is a reference. -/
def isGroup : NamePiece → Bool
  | group .. => true
  | char _ => false

/-- The text of a piece after a match. -/
def resolve (line : String) (captures : Captures) : NamePiece → List Char
  | char c => [c]
  | group written r => ((r.text? line captures).map String.toList).getD written

end NamePiece

/-- **A scope name with references**, as written, and whether it has any. -/
structure ScopeTemplate where
  /-- The name as written. -/
  text : String
  /-- The name has references. -/
  refers : Bool
  deriving DecidableEq, Repr

namespace ScopeTemplate

/-- The template that a grammar writes. -/
def ofText (text : String) : ScopeTemplate :=
  ⟨text, (NamePiece.ofText text.toList).any (·.isGroup)⟩

/-- The name with its references resolved. -/
def substitute (text line : String) (captures : Captures) : String :=
  String.ofList ((NamePiece.ofText text.toList).flatMap (·.resolve line captures))

/-- **The scope name after a match.** A name without references needs no work. -/
def resolve (t : ScopeTemplate) (line : String) (captures : Captures) : String :=
  if t.refers then substitute t.text line captures else t.text

end ScopeTemplate

end Highlight.Grammar
