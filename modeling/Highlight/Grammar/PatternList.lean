import Highlight.Grammar.Pattern
import Highlight.Keyed
import Highlight.Scanner.Basic

/-!
# Lists of patterns and their scanners

The patterns that are looked for together are compiled into one scanner. The text of a pattern
depends on the anchors that hold, so that a list may need up to four scanners; they are made
when they are first needed, and kept. If no pattern has an anchor, one scanner serves for all.

The text of a closing pattern that refers to groups changes from region to region. A change
forgets the scanners of the list.
-/

namespace Highlight.Grammar

variable {σ : Type}

/-- A match of a pattern, with what the pattern is for. -/
structure RuleMatch where
  /-- What the pattern is for. -/
  role : Role
  /-- The stretches of its groups. -/
  captures : Captures
  deriving DecidableEq, Repr

namespace RuleMatch

/-- Where the match begins. -/
def start (m : RuleMatch) : Nat := m.captures.whole?.elim 0 (·.start)

/-- Where the match ends. -/
def stop (m : RuleMatch) : Nat := m.captures.whole?.elim 0 (·.stop)

end RuleMatch

/-- **A scanner with the roles of its patterns.** -/
structure RoleScanner (σ : Type) where
  /-- The scanner. -/
  scanner : Scanner σ
  /-- The roles, in the order of the patterns. -/
  roles : List Role

/-- Searches a text from a position on. A find of a pattern that is not in the list counts as
none. -/
def RoleScanner.find (s : RoleScanner σ) (text : String) (start : Nat) :
    StateM σ (Option RuleMatch) := do
  let found ← s.scanner.find text start
  return found.bind (fun f => s.roles[f.index]?.map (⟨·, f.captures⟩))

/-- **A list of patterns**, with the scanners made so far. -/
structure PatternList (σ : Type) where
  /-- The patterns. -/
  patterns : List Pattern
  /-- The scanners, by the anchors that hold. -/
  scanners : List (Anchors × RoleScanner σ) := []

namespace PatternList

/-- Some pattern has an anchor. -/
def anchored (l : PatternList σ) : Bool := l.patterns.any (·.anchored)

/-- The anchors under which a scanner is kept. -/
def key (l : PatternList σ) (a : Anchors) : Anchors := if l.anchored then a else .neither

/-- The texts to be compiled where these anchors hold. -/
def texts (l : PatternList σ) (a : Anchors) : List String := l.patterns.map (·.textWith a)

/-- Changes the text of a pattern. -/
def setText (l : PatternList σ) (index : Nat) (text : String) : PatternList σ :=
  match l.patterns[index]? with
  | none => l
  | some p => if p.text = text then l else ⟨l.patterns.set index { p with text := text }, []⟩

/-- **The scanner of a list** where these anchors hold, and the list that keeps it. -/
def scanner (l : PatternList σ) (e : Engine σ) (a : Anchors) :
    StateM σ (Except Refusal (RoleScanner σ × PatternList σ)) := do
  match Keyed.get? (l.key a) l.scanners with
  | some s => return .ok (s, l)
  | none =>
    match ← e.compile (l.texts a) with
    | .error reason => return .error ⟨l.texts a, reason⟩
    | .ok s =>
      let s : RoleScanner σ := ⟨s, l.patterns.map (·.role)⟩
      return .ok (s, { l with scanners := Keyed.put (l.key a) s l.scanners })

end PatternList

end Highlight.Grammar
