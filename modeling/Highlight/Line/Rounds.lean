import Highlight.Line.Blocks

/-!
# Reading to the end of a line

A line is read in rounds. Each round takes the next match and closes the region on top, enters a
rule, or finds nothing more. Three checks see to it that a line comes to an end although a match
may be empty:

* a region that is closed without a step forward since it was entered stays open, and the rest
  of the line belongs to it;
* a rule is not entered again without a step forward since it was entered;
* a rule that matches the empty text by itself ends the line.

So at one place, a round either ends the line, closes a region entered earlier, or enters a rule
that was not entered there, and the number of rounds is bounded by the length of the line, the
number of rules and the number of regions open at the start, unless an engine reports matches
outside of the text. The text of a group is read on in the same way, one level deeper, and of the
levels there is no such bound. So rounds and levels are counted, and running out of what the limits
allow is an error.
-/

namespace Highlight

open Grammar

variable {σ : Type}

/-- How a round ends. -/
inductive Round where
  /-- Reading goes on. -/
  | next (c : Cursor)
  /-- The line is read to its end, in this state. -/
  | done (s : LineState)
  deriving DecidableEq, Repr

namespace LineReader

/-- The rest of the line belongs to what is on top. -/
def finish (text : String) (s : LineState) : Read σ Round := do
  Read.produce s.top.contentScopes text.utf8ByteSize
  return .done s

/-- **Closes the region on top.** Its delimiter has the scopes of the region, not those of what
is inside. -/
def closeRegion (r : LineReader σ) (readOn : ReadOn σ) (text : String) (c : Cursor)
    (m : RuleMatch) : Read σ Round := do
  let captures := match r.rules.table.body? c.state.top.rule with
    | some (.region _ closing _ _) => closing.captures
    | _ => {}
  Read.produce c.state.top.contentScopes m.start
  let closed := c.state.withContentScopes c.state.top.nameScopes
  r.readCaptures readOn text { c with state := closed } captures m.captures
  Read.produce closed.top.contentScopes m.stop
  if m.stop ≤ c.position ∧ closed.top.entered = some c.position then finish text closed
  else return .next ({ c with state := closed.pop, anchor := closed.top.anchor }.advance m.stop)

/-- **Enters a region or a block**, of which this is the frame. -/
def openRegion (r : LineReader σ) (readOn : ReadOn σ) (text : String) (c : Cursor)
    (m : RuleMatch) (frame : Frame) (opening : CaptureRules) (contentName : Option ScopeTemplate)
    (ending : Pattern) : Read σ Round := do
  let entered := c.state.push frame
  r.readCaptures readOn text { c with state := entered } opening m.captures
  Read.produce frame.nameScopes m.stop
  let contentScopes := r.nameScopes frame.nameScopes contentName text m.captures
  let entered := entered.withContentScopes contentScopes
  let entered := if ending.hasReferences then entered.withClosing (ending.resolve text m.captures)
    else entered
  if m.stop ≤ c.position ∧ c.state.reenters frame then finish text c.state
  else return .next ({ c with state := entered, anchor := some m.stop }.advance m.stop)

/-- **Enters a rule** and, if it is no region, leaves it again. -/
def enterRule (r : LineReader σ) (readOn : ReadOn σ) (text : String) (c : Cursor) (m : RuleMatch)
    (id : RuleId) (rule : Rule) : Read σ Round := do
  Read.produce c.state.top.contentScopes m.start
  let scopes := r.nameScopes c.state.top.contentScopes rule.name text m.captures
  let frame : Frame :=
    ⟨id, some c.position, c.anchor, m.stop == text.utf8ByteSize, none, scopes, scopes⟩
  match rule.body with
  | .region opening closing _ _ =>
    r.openRegion readOn text c m frame opening.captures rule.contentName closing.pattern
  | .block opening continuing _ =>
    r.openRegion readOn text c m frame opening.captures rule.contentName continuing.pattern
  | .single matched =>
    r.readCaptures readOn text { c with state := c.state.push frame } matched.captures m.captures
    Read.produce scopes m.stop
    if m.stop ≤ c.position then finish text c.state.pop else return .next (c.advance m.stop)
  | .choice _ | .capture _ => finish text c.state

/-- **One round.** -/
def round (r : LineReader σ) (readOn : ReadOn σ) (text : String) (c : Cursor) : Read σ Round := do
  match ← r.nextMatch text c with
  | none => finish text c.state
  | some m =>
    match m.role with
    | .close => r.closeRegion readOn text c m
    | .continues => finish text c.state
    | .enter id =>
      match r.rules.table.get? id with
      | none => finish text c.state
      | some rule => r.enterRule readOn text c m id rule

/-- **Rounds to the end of the line**, or until a budget is used up: the state, and whether
reading stopped before the end. -/
def rounds (r : LineReader σ) (readOn : ReadOn σ) (text : String) :
    (limit : Nat) → (budget : Option Nat) → Cursor → Read σ (LineState × Bool)
  | 0, _, _ => throw .unending
  | limit + 1, budget, c => do
    if budget = some 0 then return (c.state, true)
    match ← r.round readOn text c with
    | .done s => return (s, false)
    | .next c => r.rounds readOn text limit (budget.map (· - 1)) c

/-- How many rounds a text may take that is read from a state on: at every position, each rule
may be entered once, and what was entered may be closed once. Matches outside of the text come
on top of that. -/
def roundLimit (r : LineReader σ) (text : String) (s : LineState) : Nat :=
  2 * (text.utf8ByteSize + 2) * (r.rules.table.size + 2) + s.depth + r.limits.strays

/-- **Reads on the text of a group**, given how the texts of groups in it are read on. -/
def readGroup (r : LineReader σ) (readOn : ReadOn σ) : ReadOn σ := fun text c => do
  let _ ← r.rounds readOn text (r.roundLimit text c.state) none c

/-- Reads on the text of a group, with at most `depth` levels. -/
def readOn (r : LineReader σ) : (depth : Nat) → ReadOn σ
  | 0 => fun _ _ => throw .depth
  | depth + 1 => r.readGroup (r.readOn depth)

/-- Reads a line, given with its line end, from a state on, given how the texts of groups are
read on. -/
def readLineWith (r : LineReader σ) (readOn : ReadOn σ) (text : String) (s : LineState)
    (first : Bool) (budget : Option Nat) : Read σ (LineState × Bool) := do
  let c ← r.beginLine readOn text s first
  r.rounds readOn text (r.roundLimit text c.state) budget c

/-- **Reads a line**, given with its line end, from a state on: the state in the end, and
whether reading stopped before the end. -/
def readLine (r : LineReader σ) (text : String) (s : LineState) (first : Bool)
    (budget : Option Nat) : Read σ (LineState × Bool) :=
  r.readLineWith (r.readOn r.limits.levels) text s first budget

end LineReader

end Highlight
