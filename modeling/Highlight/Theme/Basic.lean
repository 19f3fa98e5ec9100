import Highlight.ColorMap
import Highlight.Scope.Path
import Highlight.Theme.Rule
import Highlight.Theme.Trie

/-!
# Themes

A theme made from its rules answers one question: the style of a scope path. Rules for the empty
scope give the **defaults**, black on white where there are none; all others go into the trie.
-/

namespace Highlight

/-- **A theme.** -/
structure Theme where
  /-- The colours by number. -/
  colorMap : ColorMap
  /-- The style that every path starts from. -/
  defaults : Theme.Style
  /-- The rules. -/
  rules : Theme.Trie

namespace Theme

/-- What the rules for the empty scope set. -/
structure Defaults where
  /-- The font style. -/
  fontStyle : FontStyle := .plain
  /-- The foreground colour. -/
  foreground : String := "#000000"
  /-- The background colour. -/
  background : String := "#ffffff"

/-- The defaults after one more rule for the empty scope. -/
def Defaults.next (d : Defaults) (r : Rule) : Defaults where
  fontStyle := r.fontStyle.getD d.fontStyle
  foreground := r.foreground.getD d.foreground
  background := r.background.getD d.background

/-- Adds a rule to a trie, numbering its colours. -/
def addRule (state : Trie × ColorMap) (r : Rule) : Except MissingColor (Trie × ColorMap) := do
  let (foreground, colors) ← state.2.number r.foreground
  let (background, colors) ← colors.number r.background
  let style := ⟨r.fontStyle, foreground, background⟩
  return (state.1.insert r.parents style 0 (Scope.segments r.scope), colors)

/-- The theme of sorted rules. -/
def ofRules (rules : List Rule) (colors : ColorMap) : Except MissingColor Theme := do
  let unscoped := rules.takeWhile (·.scope.isEmpty)
  let others := rules.dropWhile (·.scope.isEmpty)
  let d := unscoped.foldl Defaults.next {}
  let (foreground, colors) ← colors.number (some d.foreground)
  let (background, colors) ← colors.number (some d.background)
  let (trie, colors) ← others.foldlM addRule (Trie.empty, colors)
  return ⟨colors, ⟨some d.fontStyle, foreground, background⟩, trie⟩

/-- **The theme of a definition.** Given a list of colours, their numbers are fixed by it, and a
colour that is not in the list is an error. -/
def ofDefinition (d : Definition) (frozen : Option (List String)) : Except MissingColor Theme :=
  ofRules d.sortedRules (frozen.elim .empty .freeze)

/-- The theme without rules: black on white. -/
def standard : Theme where
  colorMap := (ColorMap.empty.add "#000000").add "#FFFFFF"
  defaults := ⟨some .plain, 1, 2⟩
  rules := .empty

/-- The scopes around, nearest first, fit a list of parents: each name covers a scope further
out than the one before it, and immediately so after a `>`. The nearest scope that fits is
taken. -/
def fits : (ancestors parents : List String) → Bool
  | _, [] => true
  | _, [">"] => false
  | [], _ :: _ => false
  | a :: ancestors, ">" :: p :: parents => Scope.coveredBy a p && fits ancestors parents
  | a :: ancestors, p :: parents =>
    if Scope.coveredBy a p then fits ancestors parents else fits ancestors (p :: parents)

/-- **The style of a path**: that of the most specific rule for its innermost scope whose
parents fit the scopes around it. -/
def styleOf? (t : Theme) (path : ScopePath) : Option Style :=
  ((t.rules.rulesFor path.name).find? (fun e => fits path.ancestors e.parents)).map (·.style)

/-- The description of a style. -/
def Style.describe (s : Style) : String :=
  "StyleAttributes \x7b font_style: " ++
    (match s.fontStyle with
     | some f => "Some(" ++ f.describe ++ ")"
     | none => "None") ++
    ", foreground_id: " ++ toString s.foreground ++
    ", background_id: " ++ toString s.background ++ " \x7d"

/-- The description of a theme. -/
def describe (t : Theme) : String :=
  "Theme \x7b color_map: " ++ Text.quotedList t.colorMap.colors ++
    ", defaults: " ++ t.defaults.describe ++ ", .. \x7d"

end Theme

end Highlight
