import Highlight.Grammar.Catalog
import Highlight.Grammar.Rule

/-!
# Compiling rules

The rules of a grammar are compiled in depth, starting from the grammar as a whole: a rule takes
its number, then the rules for its groups and the rules inside it are compiled, following
references, and at last it is put into the table. A rule that has taken a number is not compiled
again, which makes an end of circles.

What a reference means depends on what is **in sight**: the named rules of the grammar, hidden
by those of the enclosing rules, and the grammar that the text begins with. Another grammar is
opened when it is first referred to, and which grammar then counts as its base stays decided.

References that lead nowhere are left out, and so are rules of which nothing remains.
-/

namespace Highlight.Grammar

/-- **Why a grammar cannot be compiled.** -/
inductive CompileError where
  /-- A group number is so great that there is no list of all groups up to it. -/
  | groupNumber (group : Nat)
  /-- Rules stand inside each other more deeply than there are rules. -/
  | depth
  deriving DecidableEq, Repr

/-- A grammar that is being compiled, with the one that counts as its base. -/
structure Opened where
  /-- The grammar. -/
  self : Definition
  /-- Its base. -/
  base : Definition

/-- What is in sight at a rule. -/
structure Sight where
  /-- The named rules; earlier ones hide later ones. -/
  entries : List (String × Located)
  /-- The grammar that counts as base. -/
  base : Definition

/-- The grammar as a whole, as a rule. -/
def Definition.whole (d : Definition) : Located :=
  ⟨d.site, { name := some d.scopeName, patterns := some d.patterns }⟩

/-- What is in sight at the top of a grammar. -/
def Opened.sight (o : Opened) : Sight where
  entries := ("$base", o.base.whole) :: ("$self", o.self.whole) :: o.self.locatedEntries
  base := o.base

/-- What is in sight inside a rule with named rules of its own. -/
def Sight.inside (s : Sight) (l : Located) : Sight :=
  { s with entries := locateEntries l.site l.rule.repository ++ s.entries }

/-- **The state of a compilation.** -/
structure Compilation where
  /-- The rules. -/
  table : RuleTable := {}
  /-- The numbers taken, by site. -/
  numbers : List (Site × RuleId) := []
  /-- The other grammars opened, by scope. -/
  opened : List (String × Opened) := []

/-- The steps of a compilation. -/
abbrev Compile := EStateM CompileError Compilation

namespace Compile

/-- Takes the number for the rule at a site. -/
def take (site : Site) : Compile RuleId :=
  modifyGet (fun c =>
    let (id, table) := c.table.reserve
    (id, { c with table := table, numbers := (site, id) :: c.numbers }))

/-- Completes a rule. -/
def complete (id : RuleId) (r : Rule) : Compile Unit :=
  modify (fun c => { c with table := c.table.set id r })

/-- Adds a rule that has no site. -/
def add (r : Rule) : Compile RuleId :=
  modifyGet (fun c =>
    let (id, table) := c.table.add r
    (id, { c with table := table }))

/-- Opens the grammar of a scope, if there is one. The grammar that the text begins with, and
the grammars opened before, are as they were opened then. -/
def openGrammar (catalog : Catalog) (root : Definition) (scope : String)
    (base : Option Definition) : Compile (Option Opened) := do
  if scope = root.scopeName then return some ⟨root, root⟩
  match Keyed.get? scope (← get).opened with
  | some o => return some o
  | none =>
    match catalog.grammar? scope with
    | none => return none
    | some d =>
      let o : Opened := ⟨d, base.getD d⟩
      modify (fun c => { c with opened := (scope, o) :: c.opened })
      return some o

/-- How a rule is compiled, given what is in sight. -/
abbrev Step := Sight → Located → Compile RuleId

/-- The greatest group number. The list of all groups has a place of eight bytes for each, and may
be no longer than 2^63 - 1 bytes. -/
def groupLimit : Nat := (1 <<< 60) - 2

/-- Compiles the rules for the groups of a pattern. A rule with rules inside it is compiled as
such, and the text of the group is read by it. -/
def captures (step : Step) (s : Sight) (site : Site) (list : CaptureList)
    (rules : List (Nat × RuleDefinition)) : Compile CaptureRules := do
  match rules.find? (groupLimit < ·.1) with
  | some (group, _) => throw (.groupNumber group)
  | none => pure ()
  let ids ← rules.mapM (fun (group, r) => do
    let within ← if r.patterns.isSome then some <$> step s ⟨site.inside (.capture list group), r⟩
      else pure none
    let id ← add ⟨r.name.map .ofText, r.contentName.map .ofText, .capture within⟩
    return (group, id))
  return ⟨ids⟩

/-- Compiles the rules for the groups of a pattern that may have a list of its own. -/
def capturesOr (step : Step) (s : Sight) (l : Located) (list : CaptureList)
    (own : Option (List (Nat × RuleDefinition))) : Compile CaptureRules :=
  match own with
  | some rules => captures step s l.site list rules
  | none => captures step s l.site .common (l.rule.captures.getD [])

/-- Compiles what a reference leads to, if it leads anywhere. -/
def reference (catalog : Catalog) (root : Definition) (step : Step) (s : Sight) :
    Reference → Compile (Option RuleId)
  | .base => (Keyed.get? "$base" s.entries).mapM (step s)
  | .self => (Keyed.get? "$self" s.entries).mapM (step s)
  | .named name => (Keyed.get? name s.entries).mapM (step s)
  | .grammar scope => do
    match ← openGrammar catalog root scope (some s.base) with
    | some o => some <$> step o.sight o.self.whole
    | none => return none
  | .namedIn scope name => do
    match ← openGrammar catalog root scope (some s.base) with
    | some o => (Keyed.get? name o.self.locatedEntries).mapM (step o.sight)
    | none => return none

/-- Compiles one of the rules inside a rule. It is left out if it leads nowhere. -/
def inner (catalog : Catalog) (root : Definition) (step : Step) (s : Sight) (l : Located) :
    Compile (Option RuleId) := do
  let id? ← match l.rule.reference with
    | some text => reference catalog root step s (.ofText text)
    | none => some <$> step s l
  let table := (← get).table
  return id?.filter (fun id => !(table.get? id).any (·.isVoid))

/-- Compiles the rules inside a rule. -/
def inside (catalog : Catalog) (root : Definition) (step : Step) (s : Sight)
    (rules : List Located) : Compile Inside := do
  let ids := (← rules.mapM (inner catalog root step s)).filterMap id
  return ⟨ids, ids.length != rules.length⟩

/-- A text that is given and not empty. -/
def given (text : Option String) : Option String := text.filter (· ≠ "")

/-- Compiles what a rule does. -/
def body (catalog : Catalog) (root : Definition) (step : Step) (s : Sight) (l : Located)
    (id : RuleId) : Compile RuleBody := do
  let r := l.rule
  let patterns := fun (s : Sight) =>
    inside catalog root step s (locatePatterns l.site (r.patterns.getD []))
  match given r.pattern, r.opening with
  | some pattern, _ =>
    return .single ⟨.ofSource pattern (.enter id), ← capturesOr step s l .common none⟩
  | none, some opening =>
    let opening := Pattern.ofSource opening (.enter id)
    let openingRules ← capturesOr step s l .opening r.openingCaptures
    match given r.continuing with
    | some continuing =>
      let continuingRules ← capturesOr step s l .continuing r.continuingCaptures
      return .block ⟨opening, openingRules⟩
        ⟨.ofSource continuing .continues, continuingRules⟩ (← patterns s)
    | none =>
      let closing := Pattern.ofSource ((given r.closing).getD matchesNothing) .close
      let closingRules ← capturesOr step s l .closing r.closingCaptures
      return .region ⟨opening, openingRules⟩ ⟨closing, closingRules⟩ r.closeLast (← patterns s)
  | none, none =>
    let s := s.inside l
    match r.patterns, r.reference with
    | none, some text =>
      return .choice (← inside catalog root step s [⟨l.site, { reference := some text }⟩])
    | _, _ => return .choice (← patterns s)

/-- **Compiles a rule**, unless it has a number already. -/
def rule (catalog : Catalog) (root : Definition) : (depth : Nat) → Step
  | 0, _, _ => throw .depth
  | depth + 1, s, l => do
    match Keyed.get? l.site (← get).numbers with
    | some id => return id
    | none =>
      let id ← take l.site
      let body ← body catalog root (rule catalog root depth) s l id
      let contentName := match body with
        | .single _ => none
        | _ => l.rule.contentName.map .ofText
      complete id ⟨l.rule.name.map .ofText, contentName, body⟩
      return id

end Compile

end Highlight.Grammar
