import Highlight.FontStyle
import Highlight.Order
import Highlight.Theme.Definition

/-!
# Rules of a theme

A setting is taken apart into one rule for each of its scopes. The last word of a scope text is
the scope that the rule is about; the words before it are scopes that must stand around it.
Rules are sorted by scope, so that a rule for a scope comes after the rules for the scopes that
cover it, and then by how much stands around it and by their place in the theme.
-/

namespace Highlight.Theme

/-- A text is a colour: a number sign and three, four, six or eight hexadecimal digits. -/
def isColor (text : String) : Bool :=
  match text.toList with
  | '#' :: digits => [3, 4, 6, 8].contains digits.length && digits.all Unicode.isHexDigit
  | _ => false

/-- **A rule**: a style for a scope inside other scopes. -/
structure Rule where
  /-- The scope. Rules for the empty scope set the defaults. -/
  scope : String
  /-- The scopes around it, nearest first. The word `>` asks for the next name to stand
  immediately around. -/
  parents : List String
  /-- The place of the setting in the theme. -/
  index : Nat
  /-- The font style, if set. -/
  fontStyle : Option FontStyle
  /-- The foreground colour, if set. -/
  foreground : Option String
  /-- The background colour, if set. -/
  background : Option String
  deriving Repr

/-- The scope texts of a setting. Commas at the ends of a text separate nothing. -/
def ScopeText.texts : Option ScopeText → List String
  | none => [""]
  | some (.one text) => Text.split ',' (Text.trimBoth (· == ',') text)
  | some (.many texts) => texts

/-- The rules of the setting with this place in the theme. -/
def Setting.rules (s : Setting) (index : Nat) : List Rule :=
  match s.style with
  | none => []
  | some style =>
    (ScopeText.texts s.scope).map (fun text =>
      let words := (Text.split ' ' (Text.trim text)).reverse
      { scope := words.headD ""
        parents := words.tail
        index
        fontStyle := style.fontStyle.map .ofText
        foreground := style.foreground.filter isColor
        background := style.background.filter isColor })

/-- The rules of a theme, in the order of its settings. -/
def Definition.rules (d : Definition) : List Rule :=
  d.settings.zipIdx.flatMap (fun (s, index) => s.rules index)

/-- Lists of scopes by their lengths, and by their scopes if those agree. -/
def compareParents (a b : List String) : Ordering :=
  (compare a.length b.length).then (compare a b)

/-- The order of rules: by scope, by the scopes around it, and by place. -/
def Rule.order (a b : Rule) : Ordering :=
  ((compare a.scope b.scope).then (compareParents a.parents b.parents)).then
    (compare a.index b.index)

/-- **The rules of a theme in their order.** -/
def Definition.sortedRules (d : Definition) : List Rule :=
  Order.sort (fun a b => (a.order b).isLT) d.rules

end Highlight.Theme
