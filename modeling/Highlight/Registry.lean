import Highlight.Grammar.Dependencies
import Highlight.Highlighter

/-!
# The registry

The registry holds the grammars that are known, a theme and an engine, and makes highlighters
from them. Before a grammar is compiled, all that it depends on is fetched: a grammar that is
not known is asked from a **source**, if there is one. Dependencies that stay unknown are left
out; only the grammar itself must be there.
-/

namespace Highlight

open Grammar

variable {σ : Type}

/-- **A source of grammars**: what it has to give for a scope. A grammar need not have the name
that it was asked for by. -/
structure Source where
  /-- The grammars, by the scope they are asked for by. -/
  grammars : List (String × Definition) := []
  /-- The grammars to be injected, by scope. -/
  injections : List (String × List String) := []

namespace Source

/-- The grammar for a scope. -/
def grammar? (s : Source) (scope : String) : Option Definition := Keyed.get? scope s.grammars

/-- The grammars to be injected into that of a scope. -/
def injectionsInto (s : Source) (scope : String) : List String :=
  (Keyed.get? scope s.injections).getD []

/-- How many rules the grammars hold together. -/
def size (s : Source) : Nat := Keyed.total Definition.size s.grammars

end Source

/-- **The registry.** -/
structure Registry (σ : Type) where
  /-- The theme of the highlighters to be made. -/
  theme : Theme
  /-- The grammars that are known. -/
  catalog : Catalog
  /-- Where to ask for others. -/
  source : Option Source
  /-- The engine of the highlighters to be made. -/
  engine : Engine σ

/-- **Why a highlighter cannot be made.** -/
inductive LoadError where
  /-- There is no grammar of that name. -/
  | missing (e : MissingGrammar)
  /-- The grammar cannot be compiled. -/
  | compile (e : CompileError)
  /-- Dependencies were found in more rounds than there are references. -/
  | rounds
  deriving DecidableEq, Repr

/-- What fetching grammars changes: the catalog, and the scopes that were asked from the source,
last first. -/
structure Fetching where
  /-- The catalog. -/
  catalog : Catalog
  /-- The scopes. -/
  requested : List String := []

/-- The steps of fetching grammars. -/
abbrev Fetch := EStateM LoadError Fetching

namespace Fetch

/-- Sees to it that the grammar of a scope is known, if the source has it. -/
def ensure (source : Option Source) (scope : String) : Fetch Unit := do
  if ((← get).catalog.grammar? scope).isSome then return
  match source with
  | none => return
  | some source =>
    modify (fun f => { f with requested := scope :: f.requested })
    match source.grammar? scope with
    | none => return
    | some d =>
      modify (fun f => { f with catalog := f.catalog.add d (source.injectionsInto scope) })

/-- **Fetches what is asked for**, round after round, until nothing is. -/
def rounds (source : Option Source) : (limit : Nat) → Dependencies → Fetch Unit
  | 0, _ => throw .rounds
  | limit + 1, d => do
    if d.queue.isEmpty then return
    d.queue.forM (fun n => ensure source n.scope)
    match d.next (← get).catalog with
    | .ok d => rounds source limit d
    | .error e => throw (.missing e)

end Fetch

namespace Registry

/-- The registry that knows nothing, with the standard theme. -/
def empty (engine : Engine σ) : Registry σ := ⟨.standard, {}, none, engine⟩

/-- Adds a grammar, and notes the grammars to be injected into it. -/
def add (r : Registry σ) (d : Definition) (injected : List String) : Registry σ :=
  { r with catalog := r.catalog.add d injected }

/-- The grammar of a scope is known. -/
def contains (r : Registry σ) (scope : String) : Bool := (r.catalog.grammar? scope).isSome

/-- How many rounds fetching can take: each but the first and the last finds a reference of a
rule, or an injected grammar, that was not found before. -/
def roundLimit (r : Registry σ) : Nat :=
  let injected := Keyed.total List.length
  let asked := Keyed.total (fun (d : Definition) => d.injectTo.length)
  let source := r.source.getD {}
  r.catalog.size + source.size + injected r.catalog.injections + injected source.injections +
    asked source.grammars + 2

/-- **Makes a highlighter** for the grammar of a scope: the highlighter or the error, the
registry with all that was fetched, and the scopes that were asked from the source, in order. -/
def load (r : Registry σ) (scope : String) (language : Nat)
    (configuration : Option Configuration) :
    Except LoadError (Highlighter σ) × Registry σ × List String :=
  match (Fetch.rounds r.source r.roundLimit (.ofRoot scope)).run ⟨r.catalog, []⟩ with
  | .error e f => (.error e, { r with catalog := f.catalog }, f.requested.reverse)
  | .ok _ f =>
    let r := { r with catalog := f.catalog }
    let made := match r.catalog.grammar? scope with
      | none => .error (.missing ⟨scope⟩)
      | some d =>
        match Ruleset.ofDefinition r.catalog d with
        | .ok rules => .ok (.make rules r.theme r.engine language configuration)
        | .error e => .error (.compile e)
    (made, r, f.requested.reverse)

/-- The description of a registry. -/
def describe (r : Registry σ) : String :=
  let scopes := Order.sort (fun a b => decide (a < b)) (r.catalog.grammars.map (·.1))
  "Registry \x7b theme: " ++ r.theme.describe ++ ", grammars: " ++ Text.quotedList scopes ++
    ", has_source: " ++ toString r.source.isSome ++ ", .. \x7d"

end Registry

end Highlight
