import Highlight.Grammar.PatternList
import Highlight.Grammar.Rule

/-!
# The cache of scanners

For every rule that lines have been read inside of, the cache keeps the list of the patterns
that are looked for there, and for every block the list of its continuing pattern alone. The
lists are made from the table of rules when they are first needed.

A list whose closing or continuing pattern refers to groups is given the text of the region at
hand each time it is used.
-/

namespace Highlight.Grammar

variable {σ : Type}

/-- **The cache.** -/
structure ScannerCache (σ : Type) where
  /-- The patterns looked for inside a rule. -/
  inside : List (RuleId × PatternList σ) := []
  /-- The continuing pattern of a block. -/
  continuing : List (RuleId × PatternList σ) := []

/-- What searching changes: the cache and the state of the engine. -/
structure Searching (σ : Type) where
  /-- The cache. -/
  cache : ScannerCache σ
  /-- The state of the engine. -/
  engine : σ

/-- Steps that search; the engine may refuse a list of patterns. -/
abbrev Search (σ : Type) := EStateM Refusal (Searching σ)

namespace Search

/-- Calls the engine. -/
def call {α : Type} (x : StateM σ α) : Search σ α :=
  modifyGet (fun s =>
    let (a, engine) := x.run s.engine
    (a, { s with engine := engine }))

/-- Makes sure that the scanner of a list is there, and keeps the list. The list is kept even if
the engine refuses it. -/
def prepare (e : Engine σ) (keep : PatternList σ → ScannerCache σ → ScannerCache σ)
    (l : PatternList σ) (a : Anchors) : Search σ (RoleScanner σ) := do
  let put := fun l => modify (fun (s : Searching σ) => { s with cache := keep l s.cache })
  put l
  match ← call (l.scanner e a) with
  | .error refusal => throw refusal
  | .ok (s, l) =>
    put l
    return s

/-- The list of what is looked for inside a rule, given the closing text of the region. -/
def listInside (table : RuleTable) (id : RuleId) (closing : Option String)
    (c : ScannerCache σ) : PatternList σ :=
  let l := (Keyed.get? id c.inside).getD ⟨table.patternsOf id, []⟩
  match table.body? id, closing with
  | some (.region _ delimiter closeLast _), some text =>
    if delimiter.pattern.hasReferences then
      l.setText (if closeLast then l.patterns.length - 1 else 0) text
    else l
  | _, _ => l

/-- The list of the continuing pattern of a block, given its text in the region. -/
def listContinuing (table : RuleTable) (id : RuleId) (text : Option String)
    (c : ScannerCache σ) : PatternList σ :=
  match table.body? id with
  | some (.block _ delimiter _) =>
    let l := (Keyed.get? id c.continuing).getD ⟨[delimiter.pattern], []⟩
    if delimiter.pattern.hasReferences then l.setText 0 (text.getD matchesNothing) else l
  | _ => (Keyed.get? id c.continuing).getD ⟨[], []⟩

/-- **The scanner for what is looked for inside a rule.** -/
def scannerInside (e : Engine σ) (table : RuleTable) (id : RuleId) (closing : Option String)
    (a : Anchors) : Search σ (RoleScanner σ) := do
  let l := listInside table id closing (← get).cache
  prepare e (fun l c => { c with inside := Keyed.put id l c.inside }) l a

/-- **The scanner for the continuing pattern of a block.** -/
def scannerContinuing (e : Engine σ) (table : RuleTable) (id : RuleId) (text : Option String)
    (a : Anchors) : Search σ (RoleScanner σ) := do
  let l := listContinuing table id text (← get).cache
  prepare e (fun l c => { c with continuing := Keyed.put id l c.continuing }) l a

end Search

end Highlight.Grammar
