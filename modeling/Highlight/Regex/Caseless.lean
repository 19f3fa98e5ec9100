import Highlight.Regex.Term

/-!
# Where case does not matter

A pattern that does not look at case is spelled out: a letter becomes a set of letters, and a
text becomes alternatives where several of its letters have the folding of a single one. `ss`
becomes the text itself, or `ß`, or `ẞ`, or any other way to write two letters of that kind.

The text itself is always tried first. What stands behind a place is measured in characters, so
in there a letter is replaced by single letters only.
-/

namespace Highlight.Regex

open Unicode (foldLetter longFold? unfoldLetter unfoldText variants)

/-- The characters that fold to a letter, and the letter itself before them. -/
def spellings (letter : Char) : List Char := letter :: unfoldLetter letter

/-- Every text with one element of each list. -/
def choices : List (List Char) → List (List Char)
  | [] => [[]]
  | cs :: rest => cs.flatMap (fun c => (choices rest).map (c :: ·))

/-- The other texts with the folding of `written`, which are those of single characters, and
those of one character for each letter of the folding. -/
def otherSpellings (written folding : List Char) : List (List Char) :=
  ((unfoldText folding).map (fun c => [c]) ++ choices (folding.map spellings)).filter
    (· != written)

/-- The folding of the first letters of a text, if it is that of a single character, too. Three
letters go before two. -/
def leadingFold? (cs : List Char) : Option (List Char) :=
  [3, 2].findSome? (fun n =>
    let folding := (cs.take n).map foldLetter
    if folding.length = n ∧ !(unfoldText folding).isEmpty then some folding else none)

namespace Term

/-- One of several texts. -/
def oneOf (texts : List (List Char)) : Term := altOf (texts.map (text · false))

/-- A character in any case, as a single character. -/
def letterAnyCase (c : Char) : Term :=
  match variants c with
  | [] => text [c] false
  | others => set (.ofList (c :: others))

/-- A character in any case. -/
def charAnyCase (c : Char) : Term :=
  match longFold? c with
  | some folding => oneOf ([c] :: otherSpellings [c] folding)
  | none => letterAnyCase c

/-- The pieces of a text in any case, given how many characters there are at most. -/
def piecesAnyCase : Nat → List Char → List Term
  | _, [] => []
  | 0, _ => []
  | fuel + 1, c :: cs =>
    match leadingFold? (c :: cs) with
    | some folding =>
      let written := (c :: cs).take folding.length
      oneOf (written :: otherSpellings written folding) ::
        piecesAnyCase fuel ((c :: cs).drop folding.length)
    | none => charAnyCase c :: piecesAnyCase fuel cs

/-- **A text in any case.** -/
def textAnyCase (inBehind : Bool) (cs : List Char) : Term :=
  seqOf (joinTexts (if inBehind then cs.map letterAnyCase else piecesAnyCase cs.length cs))

/-- **A set in any case.** Beside its letters it matches what a character of it folds to, unless
it is a complement. -/
def setAnyCase (negated : Bool) (inside : CharSet) : Term :=
  let closed := CharSet.closed inside
  if negated then set (.compl closed)
  else
    let foldings := ((Unicode.longFolds.filter (fun p => closed.contains (Char.ofNat p.1))).map
      (fun p => p.2.map Char.ofNat)).eraseDups
    let ofLength := fun n => (foldings.filter (·.length == n)).map (fun folding =>
      seqOf (folding.map (fun c => set (.ofList (spellings c)))))
    altOf (set closed :: ofLength 2 ++ ofLength 3)

/-- **A pattern with its case spelled out.** -/
def caseless (inBehind : Bool) : Term → Term
  | text cs true => textAnyCase inBehind cs
  | seq a b => seq (a.caseless inBehind) (b.caseless inBehind)
  | alt a b => alt (a.caseless inBehind) (b.caseless inBehind)
  | bare a => bare (a.caseless inBehind)
  | optioned a => optioned (a.caseless inBehind)
  | group index a => group index (a.caseless inBehind)
  | loop a least most greedy => loop (a.caseless inBehind) least most greedy
  | atomic a => atomic (a.caseless inBehind)
  | ahead a negated => ahead (a.caseless inBehind) negated
  | behind a negated => behind (a.caseless true) negated
  | t => t

end Term

end Highlight.Regex
