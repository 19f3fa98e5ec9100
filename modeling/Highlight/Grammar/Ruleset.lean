import Highlight.Grammar.Compilation
import Highlight.Order
import Highlight.Selector.Parser
import Highlight.Text.Quoted

/-!
# Rulesets

What compiling a grammar yields: a table of rules, the rule that every text begins in, and the
**injections**, rules that apply wherever their selector selects the scopes at hand, whatever
region that is in. Injections come from the grammar itself and from grammars that are injected
into it.
-/

namespace Highlight.Grammar

/-- **A rule that applies wherever a selector selects.** -/
structure Injection where
  /-- The selector, as written. -/
  selector : String
  /-- The part of the selector. -/
  part : Selector.Part
  /-- The rule. -/
  rule : RuleId
  /-- The grammar it comes from. -/
  grammar : String

namespace Injection

/-- The injections of a rule, one for each part of its selector. -/
def ofSelector (selector : String) (rule : RuleId) (grammar : String) : List Injection :=
  (Selector.parse selector).map (fun part => ⟨selector, part, rule, grammar⟩)

/-- The description of an injection. -/
def describe (i : Injection) : String :=
  "Injection(" ++ i.selector ++ " from " ++ i.grammar ++ ", rule=" ++ toString i.rule.number ++
    ", priority=" ++ toString i.part.priority.rank ++ ")"

end Injection

namespace Compile

/-- Compiles the injections that a grammar writes, by selector. -/
def ownInjections (step : Step) (root : Definition) : Compile (List Injection) := do
  let sight := Opened.sight ⟨root, root⟩
  let found ← (Order.sort (fun a b => a.1 < b.1) root.locatedInjections).mapM
    (fun (selector, l) => do
      return Injection.ofSelector selector (← step sight l) root.scopeName)
  return found.flatten

/-- Compiles a grammar that is injected. It is its own base, unless it was opened before. One
without a selector does not apply anywhere. -/
def injectedGrammar (catalog : Catalog) (root : Definition) (step : Step) (scope : String) :
    Compile (List Injection) := do
  match ← openGrammar catalog root scope none with
  | none => return []
  | some o =>
    match o.self.injectionSelector with
    | none => return []
    | some selector =>
      return Injection.ofSelector selector (← step o.sight o.self.whole) o.self.scopeName

/-- Compiles all injections, by priority. -/
def injections (catalog : Catalog) (root : Definition) (step : Step) :
    Compile (List Injection) := do
  let own ← ownInjections step root
  let others ← (catalog.injectionsInto root.scopeName).mapM (injectedGrammar catalog root step)
  return Order.sort (fun a b => a.part.priority.rank < b.part.priority.rank)
    (own ++ others.flatten)

end Compile

/-- **A compiled grammar.** -/
structure Ruleset where
  /-- The scope that names it. -/
  scope : String
  /-- The rule that every text begins in. -/
  root : RuleId
  /-- The rules. -/
  table : RuleTable
  /-- The injections, by priority. -/
  injections : List Injection

namespace Ruleset

/-- **Compiles a grammar** of a catalog. No rule stands inside itself, so one step more than
there are rules is deep enough. -/
def ofDefinition (catalog : Catalog) (root : Definition) : Except CompileError Ruleset :=
  let step := Compile.rule catalog root (catalog.size + root.size + 1)
  let run := do
    let id ← step (Opened.sight ⟨root, root⟩) root.whole
    let injections ← Compile.injections catalog root step
    return (id, injections)
  match EStateM.run run {} with
  | .ok (id, injections) c => .ok ⟨root.scopeName, id, c.table, injections⟩
  | .error e _ => .error e

/-- The description of a compiled grammar. -/
def describe (r : Ruleset) : String :=
  "Grammar \x7b scope_name: " ++ Text.quoted r.scope ++
    ", root_id: RuleId(" ++ toString r.root.number ++ "), rules: " ++ toString r.table.size ++
    ", injections: [" ++ ", ".intercalate (r.injections.map (·.describe)) ++ "], .. \x7d"

end Ruleset

end Highlight.Grammar
