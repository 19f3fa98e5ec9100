import Highlight.Line.Reader

/-!
# The next match

At every place, the patterns of the rule on top compete with those of the injections whose
selector selects the scopes there. The match that begins first is taken. Of matches that begin
at one place, an injection with left priority comes before the rule on top, and the rule on top
before any other injection; among injections the order is that of the list.

Injections after one that matches at the very place of the cursor cannot come before it, and are
not tried.
-/

namespace Highlight

open Grammar
open Selector (Priority)

variable {σ : Type}

namespace LineReader

/-- The next match of the patterns looked for inside a rule. -/
def matchInside (r : LineReader σ) (text : String) (c : Cursor) (id : RuleId)
    (closing : Option String) : Read σ (Option RuleMatch) :=
  .search do
    let scanner ← Search.scannerInside r.engine r.rules.table id closing c.anchors
    Search.call (scanner.find text c.position)

/-- The first of the next matches of injections that apply, given the best so far, and its
priority. -/
def matchInjections (r : LineReader σ) (text : String) (c : Cursor) (scopes : List String) :
    List Injection → Option (Priority × RuleMatch) → Read σ (Option (Priority × RuleMatch))
  | [], best => return best
  | i :: rest, best => do
    if i.part.matcher.selects scopes then
      match ← r.matchInside text c i.rule none with
      | none => r.matchInjections text c scopes rest best
      | some m =>
        if best.any (·.2.start ≤ m.start) then r.matchInjections text c scopes rest best
        else if m.start = c.position then return some (i.part.priority, m)
        else r.matchInjections text c scopes rest (some (i.part.priority, m))
    else r.matchInjections text c scopes rest best

/-- Which of the match of the rule on top and that of an injection is taken. -/
def preferred (m : Option RuleMatch) (injected : Option (Priority × RuleMatch)) :
    Option RuleMatch :=
  match m, injected with
  | m, none => m
  | none, some (_, i) => some i
  | some m, some (priority, i) =>
    if i.start < m.start ∨ (i.start = m.start ∧ priority = .left) then some i else some m

/-- **The next match.** -/
def nextMatch (r : LineReader σ) (text : String) (c : Cursor) : Read σ (Option RuleMatch) := do
  let m ← r.matchInside text c c.state.top.rule c.state.top.closing
  let injected ← r.matchInjections text c c.state.top.contentScopes.names r.rules.injections none
  return preferred m injected

/-- The next match of the continuing pattern of the block on top. -/
def matchContinuing (r : LineReader σ) (text : String) (c : Cursor) : Read σ (Option RuleMatch) :=
  .search do
    let top := c.state.top
    let scanner ← Search.scannerContinuing r.engine r.rules.table top.rule top.closing c.anchors
    Search.call (scanner.find text c.position)

end LineReader

end Highlight
