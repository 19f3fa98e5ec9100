import Highlight.Line.Reader

/-!
# The groups of a match

A rule may name the groups of its pattern. Groups lie inside each other, so the groups that are
under way are kept, innermost first, and each is closed when a later one begins at or after its
end. The text of a group may also be read on by further rules, with scopes of its own.

Groups that begin after the end of the match, as those of a pattern that looks ahead may, end
the list.
-/

namespace Highlight

open Grammar

variable {σ : Type}

/-- A group under way: its scopes, and where it ends. -/
structure OpenGroup where
  /-- The scopes. -/
  scopes : AttributedPath
  /-- The position after its last byte. -/
  stop : Nat
  deriving DecidableEq, Repr

/-- Closes the groups under way that end at or before a position. -/
def closeGroups (position : Nat) (t : Segments) : List OpenGroup → Segments × List OpenGroup
  | [] => (t, [])
  | g :: rest =>
    if g.stop ≤ position then closeGroups position (t.produce g.scopes g.stop) rest
    else (t, g :: rest)

/-- Closes all groups under way. -/
def closeAllGroups (t : Segments) (groups : List OpenGroup) : Segments :=
  groups.foldl (fun t g => t.produce g.scopes g.stop) t

/-- The groups that matter, with their rules: those that took part, are not empty, and come
before the first that begins after the match. -/
def Grammar.CaptureRules.groups (rules : CaptureRules) (captures : Captures) (whole : Span) :
    List (RuleId × Span) :=
  (rules.rules.filterMap (fun (group, id) =>
    ((captures[group]?.join).filter (fun s => s.start ≠ s.stop)).map (fun s => (id, s)))).takeWhile
      (fun (_, s) => s.start ≤ whole.stop)

namespace LineReader

/-- The scopes of a rule's text after a match: its name, and its content name, pushed onto a
path. -/
def nameScopes (r : LineReader σ) (path : AttributedPath) (name : Option ScopeTemplate)
    (text : String) (captures : Captures) : AttributedPath :=
  r.attribution.push path (name.map (·.resolve text captures))

/-- Has the text of a group read on by a rule. -/
def readOnGroup (r : LineReader σ) (readOn : ReadOn σ) (text : String) (c : Cursor)
    (captures : Captures) (rule : Rule) (id : RuleId) (s : Span) : Read σ Unit := do
  let nameScopes := r.nameScopes c.state.top.contentScopes rule.name text captures
  let contentScopes := r.nameScopes nameScopes rule.contentName text captures
  let state := c.state.push ⟨id, some s.start, none, false, none, nameScopes, contentScopes⟩
  match Text.before? text s.stop with
  | some text => readOn text ⟨state, s.start, none, c.first && s.start == 0⟩
  | none => throw (.outside s.stop)

/-- Reads the groups one after another, given those under way. -/
def readGroups (r : LineReader σ) (readOn : ReadOn σ) (text : String) (c : Cursor)
    (captures : Captures) : List (RuleId × Span) → List OpenGroup → Read σ Unit
  | [], groups => modify (fun t => { t with segments := closeAllGroups t.segments groups })
  | (id, s) :: rest, groups => do
    let groups ← modifyGet (fun (t : Reading σ) =>
      let (segments, groups) := closeGroups s.start t.segments groups
      (groups, { t with segments := segments }))
    let around := (groups.head?.map (·.scopes)).getD c.state.top.contentScopes
    Read.produce around s.start
    match r.rules.table.get? id with
    | some ⟨name, contentName, .capture (some within)⟩ =>
      r.readOnGroup readOn text c captures ⟨name, contentName, .capture (some within)⟩ within s
      r.readGroups readOn text c captures rest groups
    | some ⟨some name, _, .capture none⟩ =>
      let scopes := r.nameScopes around (some name) text captures
      r.readGroups readOn text c captures rest (⟨scopes, s.stop⟩ :: groups)
    | _ => r.readGroups readOn text c captures rest groups

/-- **Reads the groups of a match** by the rules for them, inside the frame on top. -/
def readCaptures (r : LineReader σ) (readOn : ReadOn σ) (text : String) (c : Cursor)
    (rules : CaptureRules) (captures : Captures) : Read σ Unit :=
  match captures.whole? with
  | none => return
  | some whole => r.readGroups readOn text c captures (rules.groups captures whole) []

end LineReader

end Highlight
