import Highlight.Grammar.Reference
import Highlight.Keyed

/-!
# Catalogs of grammars

The grammars that are known, by the scope that names them, and for each scope the grammars to be
injected into its grammar. Adding a grammar replaces one of the same name, but what the replaced
one asked to be injected into stays noted.
-/

namespace Highlight.Grammar

/-- **A catalog of grammars.** -/
structure Catalog where
  /-- The grammars by scope. -/
  grammars : List (String × Definition) := []
  /-- The grammars to be injected, by scope. -/
  injections : List (String × List String) := []

namespace Catalog

/-- The grammar of a scope. -/
def grammar? (c : Catalog) (scope : String) : Option Definition := Keyed.get? scope c.grammars

/-- The grammars to be injected into that of a scope. -/
def injectionsInto (c : Catalog) (scope : String) : List String :=
  (Keyed.get? scope c.injections).getD []

/-- Notes that a grammar is to be injected into that of a scope, if that is not noted yet. -/
def inject (c : Catalog) (scope injected : String) : Catalog :=
  let noted := c.injectionsInto scope
  if noted.contains injected then c
  else { c with injections := Keyed.put scope (noted ++ [injected]) c.injections }

/-- **Adds a grammar**, and notes which grammars are to be injected into it, and which it asks to
be injected into. -/
def add (c : Catalog) (d : Definition) (injected : List String) : Catalog :=
  let c := injected.foldl (fun c i => c.inject d.scopeName i) c
  let c := d.injectTo.foldl (fun c target => c.inject target d.scopeName) c
  { c with grammars := Keyed.put d.scopeName d c.grammars }

/-- How many rules the grammars hold together. -/
def size (c : Catalog) : Nat := Keyed.total Definition.size c.grammars

@[simp] theorem grammars_inject (c : Catalog) (scope injected : String) :
    (c.inject scope injected).grammars = c.grammars := by
  simp only [inject]
  split <;> rfl

theorem grammars_foldl_inject {α : Type} (f : α → String) (g : α → String) (xs : List α)
    (c : Catalog) :
    (xs.foldl (fun c x => c.inject (f x) (g x)) c).grammars = c.grammars := by
  induction xs generalizing c with
  | nil => rfl
  | cons x xs ih => rw [List.foldl_cons, ih, grammars_inject]

theorem grammars_add (c : Catalog) (d : Definition) (injected : List String) :
    (c.add d injected).grammars = Keyed.put d.scopeName d c.grammars := by
  simp only [add]
  rw [grammars_foldl_inject (fun t => t) (fun _ => d.scopeName),
    grammars_foldl_inject (fun _ => d.scopeName) (fun i => i)]

/-- After a grammar is added, its scope names it, and all other scopes what they named before. -/
theorem grammar?_add (c : Catalog) (d : Definition) (injected : List String) (scope : String) :
    (c.add d injected).grammar? scope =
      if scope = d.scopeName then some d else c.grammar? scope := by
  rw [grammar?, grammars_add, Keyed.get?_put, grammar?]

/-- What is to be injected into a grammar after an injection was noted. -/
theorem injectionsInto_inject (c : Catalog) (scope injected target : String) :
    (c.inject scope injected).injectionsInto target =
      if target = scope ∧ injected ∉ c.injectionsInto target then
        c.injectionsInto target ++ [injected]
      else c.injectionsInto target := by
  unfold inject
  dsimp only
  split
  · next hnoted =>
    rw [if_neg]
    rintro ⟨rfl, hnew⟩
    exact hnew (List.contains_iff_mem.1 hnoted)
  · next hnoted =>
    have hnew : injected ∉ c.injectionsInto scope := fun h => hnoted (List.contains_iff_mem.2 h)
    rw [injectionsInto, Keyed.get?_put]
    by_cases htarget : target = scope
    · rw [if_pos htarget, if_pos ⟨htarget, htarget ▸ hnew⟩, htarget, Option.getD_some]
    · rw [if_neg htarget, if_neg (fun h => htarget h.1), injectionsInto]

end Catalog

end Highlight.Grammar
