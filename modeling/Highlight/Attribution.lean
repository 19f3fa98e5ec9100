import Highlight.Scope.Attributed
import Highlight.Theme.Basic

/-!
# From scopes to attributes

The attributes of a scope come from its name – it may begin an embedded language, and its words
tell comments and strings – and from the style that the theme gives to the path up to it.
-/

namespace Highlight

/-- The words in a scope name that tell the kind of its text. -/
def kindWords : List (List Char × TokenKind) :=
  [("comment".toList, .comment), ("string".toList, .string), ("regex".toList, .regex),
   ("meta.embedded".toList, .other)]

/-- The kind told by the first of the words that stands whole in the text, given whether a word
is under way in front of it. -/
def kindFrom (inWord : Bool) : List Char → Option TokenKind
  | [] => none
  | c :: cs =>
    let whole := fun (word : List Char) => match Text.after? word (c :: cs) with
      | some [] => true
      | some (next :: _) => !Unicode.isWordSign next
      | none => false
    match if inWord then none else kindWords.find? (fun p => whole p.1) with
    | some (_, kind) => some kind
    | none => kindFrom (Unicode.isWordSign c) cs

/-- **The kind of text** that a scope name tells, if any. -/
def kindOf? (scope : String) : Option TokenKind := kindFrom false scope.toList

/-- **What the attributes of scopes are computed from.** -/
structure Attribution where
  /-- The language that every path starts with. -/
  language : Nat
  /-- The scopes of embedded languages, descending, so that a scope comes before those that
  cover it. -/
  embedded : List (String × Nat)
  /-- The theme. -/
  theme : Theme

namespace Attribution

/-- The attribution with these embedded languages, in any order. -/
def make (language : Nat) (embedded : List (String × Nat)) (theme : Theme) : Attribution :=
  ⟨language, Order.sort (fun a b => b.1 < a.1) embedded, theme⟩

/-- The embedded language of a scope, 0 if there is none. -/
def languageOf (a : Attribution) (scope : String) : Nat :=
  ((a.embedded.find? (fun p => Scope.coveredBy scope p.1)).map (·.2)).getD 0

/-- What the innermost scope of a path changes. -/
def changeOf (a : Attribution) (path : ScopePath) : AttributeChange :=
  let style := (a.theme.styleOf? path).getD .unset
  { language := a.languageOf path.name
    kind := kindOf? path.name
    fontStyle := style.fontStyle
    foreground := style.foreground
    background := style.background }

/-- The attributes before any scope. -/
def defaults (a : Attribution) : TokenAttributes :=
  TokenAttributes.blank.merge
    { language := a.language
      fontStyle := a.theme.defaults.fontStyle
      foreground := a.theme.defaults.foreground
      background := a.theme.defaults.background }

/-- The path of a single scope. -/
def root (a : Attribution) (scope : String) : AttributedPath :=
  .root scope (a.defaults.merge (a.changeOf (.root scope)))

/-- A path with one more scope inside. -/
def pushScope (a : Attribution) (p : AttributedPath) (scope : String) : AttributedPath :=
  p.push scope (p.attributes.merge (a.changeOf (p.path.push scope)))

/-- **A path with the scopes of a name inside**: a name may hold several between blanks. -/
def push (a : Attribution) (p : AttributedPath) : Option String → AttributedPath
  | none => p
  | some name => (Text.split ' ' name).foldl a.pushScope p

end Attribution

end Highlight
