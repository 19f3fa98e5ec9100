import Highlight.NameLookup

/-!
# Looking attributes up

While scopes are pushed, two things are remembered: what a name tells by itself, and which rules
the theme has for a scope. The second is kept by the innermost name alone, although the style of a
path depends on the scopes around it. So it is the rules that are kept and not a style: which of
them is the first to fit is told again on every path.

Whoever works with the same theme shares what is remembered of its rules, and whoever works with
the same attribution what is remembered of names.
-/

namespace Highlight

/-- **A lookup of attributes**, with what has been asked of it. -/
structure AttributeLookup where
  /-- The lookup of names. -/
  names : NameLookup
  /-- The scopes whose rules have been asked for, and their rules, the most specific first. -/
  rules : List (String × List Theme.Entry) := []

namespace AttributeLookup

/-- The lookup of which nothing has been asked yet. -/
def ofAttribution (a : Attribution) : AttributeLookup := ⟨⟨a, []⟩, []⟩

/-- What attributes are computed from. -/
def attribution (l : AttributeLookup) : Attribution := l.names.attribution

/-- **Asks what a name tells.** -/
def tells (l : AttributeLookup) (scope : String) : NameAttributes × AttributeLookup :=
  let (told, names) := l.names.ask scope
  (told, { l with names })

/-- **Asks which rules the theme has for a scope.** -/
def rulesFor (l : AttributeLookup) (scope : String) : List Theme.Entry × AttributeLookup :=
  match Keyed.get? scope l.rules with
  | some entries => (entries, l)
  | none =>
    let entries := l.attribution.theme.rules.rulesFor scope
    (entries, { l with rules := Keyed.put scope entries l.rules })

/-- Asks for the style of a path. -/
def styleOf? (l : AttributeLookup) (path : ScopePath) : Option Theme.Style × AttributeLookup :=
  let (entries, l) := l.rulesFor path.name
  ((entries.find? (fun e => Theme.fits path.ancestors e.parents)).map (·.style), l)

/-- Asks what the innermost scope of a path changes. -/
def changeOf (l : AttributeLookup) (path : ScopePath) : AttributeChange × AttributeLookup :=
  let (told, l) := l.tells path.name
  let (style?, l) := l.styleOf? path
  let style := style?.getD .unset
  ({ language := told.language
     kind := told.kind
     fontStyle := style.fontStyle
     foreground := style.foreground
     background := style.background }, l)

/-- The path of a single scope. -/
def root (l : AttributeLookup) (scope : String) : AttributedPath × AttributeLookup :=
  let (change, l) := l.changeOf (.root scope)
  (.root scope (l.attribution.defaults.merge change), l)

/-- A path with one more scope inside. -/
def pushScope (l : AttributeLookup) (p : AttributedPath) (scope : String) :
    AttributedPath × AttributeLookup :=
  let (change, l) := l.changeOf (p.path.push scope)
  (p.push scope (p.attributes.merge change), l)

/-- A path with some scopes inside, one after the other. -/
def pushScopes (l : AttributeLookup) (p : AttributedPath) :
    List String → AttributedPath × AttributeLookup
  | [] => (p, l)
  | scope :: scopes =>
    let (p, l) := l.pushScope p scope
    l.pushScopes p scopes

/-- **A path with the scopes of a name inside.** -/
def push (l : AttributeLookup) (p : AttributedPath) :
    Option String → AttributedPath × AttributeLookup
  | none => (p, l)
  | some name => l.pushScopes p (Text.split ' ' name)

end AttributeLookup

end Highlight
