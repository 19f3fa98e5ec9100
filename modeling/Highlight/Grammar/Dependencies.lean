import Highlight.Grammar.Catalog

/-!
# What a grammar depends on

Before a grammar can be compiled, the grammars that its rules refer to have to be in the
catalog, and those that these refer to, and so on. Which they are is found out in rounds. In
each round the rules of the grammars asked for in the last one are walked through, and the
references that leave them, to grammars other than their own and the one all began with, are
what the next round asks for. Between two rounds the grammars asked for can be fetched.

A grammar is asked for as a whole, or for one of its named rules. Nothing is asked for twice,
and no named rule of a grammar that was asked for as a whole.
-/

namespace Highlight.Grammar

/-- **What is needed** of a grammar. -/
inductive Need where
  /-- All of it. -/
  | whole (scope : String)
  /-- A named rule. -/
  | entry (scope name : String)
  deriving DecidableEq, Repr

namespace Need

/-- The grammar. -/
def scope : Need → String
  | whole scope => scope
  | entry scope _ => scope

/-- The text of a need: two needs of one text count as one. -/
def text : Need → String
  | whole scope => scope
  | entry scope name => scope ++ "#" ++ name

end Need

/-- What is in sight while rules are walked through. -/
structure Outlook where
  /-- The grammar that all began with. -/
  base : Definition
  /-- The grammar that the rules belong to. -/
  self : Definition
  /-- The named rules. -/
  entries : List (String × Located)

/-- What a walk has found. -/
structure Findings where
  /-- The rules walked through. -/
  visited : List Site := []
  /-- What is needed, in the order found. -/
  needs : List Need := []

namespace Findings

/-- Notes a need, unless it is noted. -/
def note (f : Findings) (n : Need) : Findings :=
  if f.needs.any (·.text == n.text) then f else { f with needs := f.needs ++ [n] }

/-- Notes that a rule is walked through. -/
def visit (f : Findings) (s : Site) : Findings := { f with visited := s :: f.visited }

end Findings

/-- What a reference leads to: rules to be walked through with an outlook, or a need. -/
inductive Target where
  /-- Rules. -/
  | rules (outlook : Outlook) (rules : List Located)
  /-- A need. -/
  | need (n : Need)

namespace Outlook

/-- The outlook on all rules of a grammar. -/
def ofGrammar (base self : Definition) : Outlook := ⟨base, self, self.locatedEntries⟩

/-- The outlook from inside a rule. -/
def inside (o : Outlook) (l : Located) : Outlook :=
  { o with entries := locateEntries l.site l.rule.repository ++ o.entries }

/-- All rules of the grammar in sight. -/
def all (o : Outlook) : Target :=
  .rules (.ofGrammar o.base o.self) (o.self.locatedPatterns ++ o.self.locatedInjections.map (·.2))

/-- A named rule in sight. -/
def entry (o : Outlook) (name : String) : Target := .rules o (Keyed.get? name o.entries).toList

/-- The grammar of a scope, if it is one of the two in sight. -/
def grammar? (o : Outlook) (scope : String) : Option Definition :=
  if scope = o.self.scopeName then some o.self
  else if scope = o.base.scopeName then some o.base
  else none

/-- **What a reference leads to**, inside a rule. -/
def follow (o : Outlook) : Reference → Target
  | .base => { o with self := o.base }.all
  | .self => o.all
  | .named name => o.entry name
  | .grammar scope =>
    match o.grammar? scope with
    | some d => { o with self := d }.all
    | none => .need (.whole scope)
  | .namedIn scope name =>
    match o.grammar? scope with
    | some d => { o with self := d }.entry name
    | none => .need (.entry scope name)

end Outlook

/-- **Walks through rules**, the rules inside them and the rules they refer to. A rule is walked
through once, so the depth of a walk is bounded by the number of rules. -/
def walk : (depth : Nat) → Outlook → List Located → Findings → Findings
  | 0, _, _, f => f
  | depth + 1, o, rules, f =>
    rules.foldl (fun f l =>
      if f.visited.contains l.site then f
      else
        let inner := o.inside l
        let f := f.visit l.site
        let f := match l.rule.patterns with
          | some patterns => walk depth inner (locatePatterns l.site patterns) f
          | none => f
        match l.rule.reference with
        | none => f
        | some reference =>
          match inner.follow (.ofText reference) with
          | .rules o rules => walk depth o rules f
          | .need n => f.note n) f

/-- **A grammar that was needed is not in the catalog.** -/
structure MissingGrammar where
  /-- Its scope. -/
  scope : String
  deriving DecidableEq, Repr

/-- The message of the error. -/
def MissingGrammar.message (e : MissingGrammar) : String :=
  "no grammar provided for <" ++ e.scope ++ ">"

/-- **The state between two rounds.** -/
structure Dependencies where
  /-- The grammar that all began with. -/
  root : String
  /-- The grammars asked for as a whole. -/
  whole : List String
  /-- The texts of the needs of a named rule. -/
  entries : List String
  /-- What is asked for in this round. -/
  queue : List Need
  deriving Repr

namespace Dependencies

/-- The first round asks for the grammar itself. -/
def ofRoot (root : String) : Dependencies := ⟨root, [root], [], [.whole root]⟩

/-- What is found from one need. The grammar that all began with must be there; any other may be
missing. -/
def explore (c : Catalog) (root : String) (f : Findings) (n : Need) :
    Except MissingGrammar Findings :=
  match c.grammar? n.scope, c.grammar? root with
  | none, _ => if n.scope = root then .error ⟨root⟩ else .ok f
  | some _, none => .error ⟨root⟩
  | some self, some base =>
    let o := Outlook.ofGrammar base self
    let target := match n with
      | .whole _ => o.all
      | .entry _ name => o.entry name
    let f := match target with
      | .rules o rules => walk (c.size + 1) o rules f
      | .need n => f.note n
    .ok ((c.injectionsInto n.scope).foldl (fun f i => f.note (.whole i)) f)

/-- Asks for what is needed, unless it was asked for. -/
def ask (d : Dependencies) (n : Need) : Dependencies :=
  if d.whole.contains n.scope then d
  else match n with
    | .whole scope => { d with whole := scope :: d.whole, queue := d.queue ++ [n] }
    | .entry .. =>
      if d.entries.contains n.text then d
      else { d with entries := n.text :: d.entries, queue := d.queue ++ [n] }

/-- **The next round.** -/
def next (c : Catalog) (d : Dependencies) : Except MissingGrammar Dependencies := do
  let found ← d.queue.foldlM (explore c d.root) {}
  return found.needs.foldl ask { d with queue := [] }

end Dependencies

end Highlight.Grammar
