import Highlight.Line.Groups
import Highlight.Line.Search

/-!
# Blocks on a further line

A block goes on as long as each line matches its continuing pattern. Before anything else is
looked for on a line, the blocks that are open are tried, from the outermost inwards, each from
where the match of the one before it ended. The first that does not match is closed, with
everything inside it.
-/

namespace Highlight

open Grammar

variable {σ : Type}

namespace LineReader

/-- The rule on top is a block: its continuing pattern. -/
def continuing? (r : LineReader σ) (s : LineState) : Option Delimiter :=
  match r.rules.table.body? s.top.rule with
  | some (.block _ continuing _) => some continuing
  | _ => none

/-- The blocks that are open, outermost first: the state in which each is on top, and its
continuing pattern. -/
def openBlocks (r : LineReader σ) (s : LineState) : List (LineState × Delimiter) :=
  (s.chain.filterMap (fun s => (r.continuing? s).map (s, ·))).reverse

/-- Tries one block after another. The cursor keeps the state as it was before. -/
def continueBlocks (r : LineReader σ) (readOn : ReadOn σ) (text : String) :
    List (LineState × Delimiter) → Cursor → Read σ Cursor
  | [], c => return c
  | (s, continuing) :: rest, c => do
    let here := { c with state := s }
    match ← r.matchContinuing text here with
    | some ⟨.continues, captures⟩ =>
      match captures.whole? with
      | none => r.continueBlocks readOn text rest c
      | some whole =>
        Read.produce s.top.contentScopes whole.start
        r.readCaptures readOn text here continuing.captures captures
        Read.produce s.top.contentScopes whole.stop
        r.continueBlocks readOn text rest ({ c with anchor := some whole.stop }.advance whole.stop)
    | _ => return { c with state := s.pop }

/-- **Begins a line**: the cursor after the open blocks have been tried. -/
def beginLine (r : LineReader σ) (readOn : ReadOn σ) (text : String) (s : LineState)
    (first : Bool) : Read σ Cursor :=
  let anchor := if s.top.tookLineEnd then some 0 else none
  r.continueBlocks readOn text (r.openBlocks s) ⟨s, 0, anchor, first⟩

end LineReader

end Highlight
