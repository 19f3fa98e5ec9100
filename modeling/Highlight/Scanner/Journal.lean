import Highlight.Scanner.Basic

/-!
# Engines that replay and engines that journal

Two engines use their state: one answers every search with what the state holds ready, and one
notes down all that is asked of another engine.
-/

namespace Highlight

/-- What can be asked of an engine, with the answer. -/
inductive Engine.Event where
  /-- A scanner was made, or refused, for these patterns. -/
  | compiled (patterns : List String)
  /-- A text of so many bytes was searched from a position on. -/
  | searched (size start : Nat) (found : Option Found)
  deriving DecidableEq, Repr

namespace Engine

variable {σ : Type}

/-- **The engine that replays**: it takes what a search finds from the state, whatever the text
and the patterns. -/
def replay (next : StateM σ (Option Found)) : Engine σ where
  compile patterns := pure (.ok ⟨patterns.length, fun _ _ => next⟩)

/-- A scanner whose searches are noted down. -/
def journalScanner (note : Event → σ → σ) (s : Scanner σ) : Scanner σ where
  size := s.size
  find text start := do
    let found ← s.find text start
    modify (note (.searched text.utf8ByteSize start found))
    return found

/-- **The engine that journals** what is asked of another. -/
def journal (note : Event → σ → σ) (e : Engine σ) : Engine σ where
  compile patterns := do
    let made ← e.compile patterns
    modify (note (.compiled patterns))
    return made.map (journalScanner note)

end Engine

end Highlight
