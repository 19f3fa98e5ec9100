import Highlight.Unicode.Property

/-!
# Splitting texts

Splitting at a separator, cutting at its first occurrence, and trimming.
-/

namespace Highlight.Text

/-- The pieces between the occurrences of `sep`, one more than there are occurrences. -/
def pieces (sep : Char) : List Char → List (List Char)
  | [] => [[]]
  | c :: cs =>
    if c = sep then [] :: pieces sep cs
    else match pieces sep cs with
      | p :: ps => (c :: p) :: ps
      | [] => [[c]]

/-- The pieces of a text between the occurrences of `sep`. -/
def split (sep : Char) (s : String) : List String :=
  (pieces sep s.toList).map String.ofList

/-- The texts before and after the first `sep`, if there is one. -/
def cut? (sep : Char) (s : String) : Option (String × String) :=
  match s.toList.dropWhile (· != sep) with
  | [] => none
  | _ :: rest => some (String.ofList (s.toList.takeWhile (· != sep)), String.ofList rest)

/-- A text without the characters that satisfy `p` at its front and at its end. -/
def trimBoth (p : Char → Bool) (s : String) : String :=
  String.ofList (((s.toList.dropWhile p).reverse.dropWhile p).reverse)

/-- A text without white space at its ends. -/
def trim (s : String) : String := trimBoth Unicode.isBlank s

/-- What follows `start` in `cs`, if `cs` begins with it. -/
def after? : (start cs : List Char) → Option (List Char)
  | [], cs => some cs
  | _ :: _, [] => none
  | a :: start, c :: cs => if a = c then after? start cs else none

@[simp] theorem pieces_ne_nil (sep : Char) (cs : List Char) : pieces sep cs ≠ [] := by
  cases cs with
  | nil => simp [pieces]
  | cons c cs =>
    simp only [pieces]
    split
    · simp
    · split <;> simp

/-- The pieces, joined again by the separator, give the text back. -/
theorem intercalate_pieces (sep : Char) (cs : List Char) :
    [sep].intercalate (pieces sep cs) = cs := by
  induction cs with
  | nil => simp [pieces, List.intercalate]
  | cons c cs ih =>
    simp only [pieces]
    have hne := pieces_ne_nil sep cs
    match h : pieces sep cs with
    | [] => exact absurd h hne
    | p :: ps =>
      rw [h] at ih
      split
      · subst_vars
        simp_all [List.intercalate, List.intersperse]
      · cases ps <;> simp_all [List.intercalate, List.intersperse]

/-- What `after?` returns is what stands after the given start. -/
theorem after?_eq_some_iff {start cs rest : List Char} :
    after? start cs = some rest ↔ cs = start ++ rest := by
  induction start generalizing cs with
  | nil => simp [after?, eq_comm]
  | cons a start ih =>
    cases cs with
    | nil => simp [after?]
    | cons c cs => by_cases h : a = c <;> simp [after?, h, ih, eq_comm]

end Highlight.Text
