import Highlight.Line.Rounds

/-!
# Highlighters

A highlighter is a compiled grammar made ready to read lines: with a theme, with languages
embedded in its scopes, and with overrides of the attributes. It reads a line from the state
that the line before it ended in, and yields the tokens or runs of the line and the state at its
end. The first line of a document is read from no state.
-/

namespace Highlight

open Grammar

variable {σ : Type}

/-- **How a highlighter is set up.** -/
structure Configuration where
  /-- The languages embedded in scopes. -/
  embedded : List (String × Nat) := []
  /-- The kinds of token forced by selector texts, in order. -/
  kinds : List (String × TokenKind) := []
  /-- Selector texts for balanced brackets. -/
  balanced : List String := []
  /-- Selector texts for brackets that are not balanced. -/
  unbalanced : List String := []

/-- The overrides of a configuration. -/
def Configuration.overrides (c : Configuration) : Overrides where
  kinds := Overrides.kindsOfTexts c.kinds
  brackets := some (.ofTexts c.balanced c.unbalanced)

/-- **A highlighter.** -/
structure Highlighter (σ : Type) where
  /-- What it needs to read lines. -/
  reader : LineReader σ
  /-- What overrides the attributes of scopes. -/
  overrides : Overrides

/-- **What reading a line yields**: its tokens or runs, the state at its end, and whether
reading stopped before the end. -/
structure Tokenized (τ : Type) where
  /-- The tokens, or runs. -/
  tokens : List τ
  /-- The state. -/
  state : LineState
  /-- Reading stopped before the end of the line. -/
  stoppedEarly : Bool
  deriving Repr

/-- Steps that read lines. -/
abbrev Tokenize (σ : Type) := EStateM LineError (Searching σ)

namespace Highlighter

/-- A highlighter for a compiled grammar. Without a configuration nothing is overridden. -/
def make (rules : Ruleset) (theme : Theme) (engine : Engine σ) (language : Nat)
    (configuration : Option Configuration) : Highlighter σ where
  reader := {
    rules
    attribution := .make language (configuration.elim [] (·.embedded)) theme
    engine }
  overrides := configuration.elim {} (·.overrides)

/-- The highlighter with another theme. States reached before keep their attributes. -/
def withTheme (h : Highlighter σ) (theme : Theme) : Highlighter σ :=
  { h with reader.attribution.theme := theme }

/-- The highlighter with other limits. -/
def withLimits (h : Highlighter σ) (limits : Limits) : Highlighter σ :=
  { h with reader := h.reader.withLimits limits }

/-- The state that every document begins in. -/
def initialState (h : Highlighter σ) : LineState :=
  let rules := h.reader.rules
  let name := ((rules.table.get? rules.root).bind (·.name)).elim "unknown" (·.text)
  .initial rules.root (h.reader.attribution.root name)

/-- **Reads a line**, given without its line end. The budget is the number of rounds after which
reading stops, if there is one. -/
def read (h : Highlighter σ) (line : String) (previous : Option LineState)
    (budget : Option Nat) : Tokenize σ (Segments × LineState × Bool) := fun searching =>
  let state := previous.elim h.initialState (·.reset)
  match (h.reader.readLine (line ++ "\n") state previous.isNone budget).run ⟨searching, {}⟩ with
  | .ok (state, stopped) r => .ok (r.segments, state, stopped) r.searching
  | .error e r => .error e r.searching

/-- **The tokens of a line.** -/
def tokenize (h : Highlighter σ) (line : String) (previous : Option LineState)
    (budget : Option Nat) : Tokenize σ (Tokenized Token) := do
  let (segments, state, stopped) ← h.read line previous budget
  return ⟨segments.tokens state.top.contentScopes line.utf8ByteSize, state, stopped⟩

/-- **The runs of a line.** -/
def tokenizeRuns (h : Highlighter σ) (line : String) (previous : Option LineState)
    (budget : Option Nat) : Tokenize σ (Tokenized Run) := do
  let (segments, state, stopped) ← h.read line previous budget
  return ⟨segments.runs h.overrides state.top.contentScopes line.utf8ByteSize, state, stopped⟩

/-- The tokens of lines that follow each other. -/
def tokenizeLines (h : Highlighter σ) :
    List String → Option LineState → Tokenize σ (List (Tokenized Token))
  | [], _ => return []
  | line :: rest, previous => do
    let t ← h.tokenize line previous none
    return t :: (← h.tokenizeLines rest (some t.state))

/-- **The tokens of a text**, line by line. -/
def tokenizeText (h : Highlighter σ) (text : String) : Tokenize σ (List (Tokenized Token)) :=
  h.tokenizeLines (Text.split '\n' text) none

end Highlighter

end Highlight
