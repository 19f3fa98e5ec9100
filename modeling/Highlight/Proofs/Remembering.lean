import Highlight.AttributeLookup
import Highlight.Proofs.Languages

/-!
# What is remembered of attributes does not show

A lookup of attributes remembers what names tell and which rules scopes have. Whatever has been
asked before, by the same path, by another one or by someone else who shares the theme, a lookup
gives the attributes that would be worked out from nothing. The rules that are remembered for a
name are those for every path that ends with it, so they are right whichever path asked first.
-/

namespace Highlight

namespace AttributeLookup

variable {a : Attribution} {l : AttributeLookup}

/-- **What is remembered is right**: it is what an attribution tells and has. -/
structure Right (a : Attribution) (l : AttributeLookup) : Prop where
  /-- Attributes are computed from the attribution. -/
  attribution : l.attribution = a
  /-- What names tell. -/
  names : l.names.Right
  /-- The rules for scopes. -/
  rules : ∀ scope entries, Keyed.get? scope l.rules = some entries →
    entries = a.theme.rules.rulesFor scope

theorem right_ofAttribution (a : Attribution) : (ofAttribution a).Right a :=
  ⟨rfl, fun _ _ h => (nomatch h), fun _ _ h => (nomatch h)⟩

/-! ## Questions -/

theorem Right.tells (h : l.Right a) (scope : String) :
    (l.tells scope).1 = a.tells scope ∧ (l.tells scope).2.Right a := by
  obtain ⟨htold, hsame, hright⟩ := h.names.ask scope
  exact ⟨htold.trans (congrArg (·.tells scope) h.attribution), hsame.trans h.attribution, hright,
    h.rules⟩

theorem Right.rulesFor (h : l.Right a) (scope : String) :
    (l.rulesFor scope).1 = a.theme.rules.rulesFor scope ∧ (l.rulesFor scope).2.Right a := by
  unfold AttributeLookup.rulesFor
  split
  · next entries hentries => exact ⟨h.rules scope entries hentries, h⟩
  · have hentries : l.attribution.theme.rules.rulesFor scope = a.theme.rules.rulesFor scope := by
      rw [h.attribution]
    exact ⟨hentries, h.attribution, h.names, Keyed.forall_get?_put h.rules hentries⟩

theorem Right.styleOf? (h : l.Right a) (path : ScopePath) :
    (l.styleOf? path).1 = a.theme.styleOf? path ∧ (l.styleOf? path).2.Right a := by
  obtain ⟨hentries, hright⟩ := h.rulesFor path.name
  refine ⟨?_, hright⟩
  rw [AttributeLookup.styleOf?, Theme.styleOf?, ← hentries]

theorem Right.changeOf (h : l.Right a) (path : ScopePath) :
    (l.changeOf path).1 = a.changeOf path ∧ (l.changeOf path).2.Right a := by
  obtain ⟨htold, hnamed⟩ := h.tells path.name
  obtain ⟨hstyle, hright⟩ := hnamed.styleOf? path
  refine ⟨?_, hright⟩
  simp only [AttributeLookup.changeOf, Attribution.changeOf, htold, hstyle, Attribution.tells]

/-! ## Paths -/

theorem Right.root (h : l.Right a) (scope : String) :
    (l.root scope).1 = a.root scope ∧ (l.root scope).2.Right a := by
  obtain ⟨hchange, hright⟩ := h.changeOf (.root scope)
  refine ⟨?_, hright⟩
  simp only [AttributeLookup.root, Attribution.root, hchange, hright.attribution]

theorem Right.pushScope (h : l.Right a) (p : AttributedPath) (scope : String) :
    (l.pushScope p scope).1 = a.pushScope p scope ∧ (l.pushScope p scope).2.Right a := by
  obtain ⟨hchange, hright⟩ := h.changeOf (p.path.push scope)
  refine ⟨?_, hright⟩
  simp only [AttributeLookup.pushScope, Attribution.pushScope, hchange]

theorem Right.pushScopes (h : l.Right a) (p : AttributedPath) (scopes : List String) :
    (l.pushScopes p scopes).1 = scopes.foldl a.pushScope p ∧ (l.pushScopes p scopes).2.Right a := by
  induction scopes generalizing l p with
  | nil => exact ⟨rfl, h⟩
  | cons scope scopes ih =>
    obtain ⟨hpath, hright⟩ := h.pushScope p scope
    rw [List.foldl_cons, ← hpath]
    exact ih hright _

theorem Right.push (h : l.Right a) (p : AttributedPath) (name : Option String) :
    (l.push p name).1 = a.push p name ∧ (l.push p name).2.Right a := by
  cases name with
  | none => exact ⟨rfl, h⟩
  | some name => exact h.pushScopes p _

/-! ## Whatever was asked before -/

/-- **The lookups that there are of an attribution**: nothing has been asked of them at first, and
then names and rules in any order. -/
inductive Serves (a : Attribution) : AttributeLookup → Prop where
  /-- Nothing has been asked. -/
  | fresh : Serves a (ofAttribution a)
  /-- It is asked what a name tells. -/
  | tells {l : AttributeLookup} (h : Serves a l) (scope : String) : Serves a (l.tells scope).2
  /-- It is asked for the rules for a scope. -/
  | rulesFor {l : AttributeLookup} (h : Serves a l) (scope : String) :
    Serves a (l.rulesFor scope).2

/-- **What is remembered is right whatever was asked.** -/
theorem Serves.right (h : l.Serves a) : l.Right a := by
  induction h with
  | fresh => exact right_ofAttribution a
  | tells _ scope ih => exact (ih.tells scope).2
  | rulesFor _ scope ih => exact (ih.rulesFor scope).2

theorem Serves.changeOf (h : l.Serves a) (path : ScopePath) : (l.changeOf path).2.Serves a :=
  (h.tells path.name).rulesFor path.name

theorem Serves.root (h : l.Serves a) (scope : String) : (l.root scope).2.Serves a :=
  h.changeOf _

theorem Serves.push (h : l.Serves a) (p : AttributedPath) (name : Option String) :
    (l.push p name).2.Serves a := by
  have hscopes : ∀ (scopes : List String) {l : AttributeLookup} (p : AttributedPath),
      l.Serves a → (l.pushScopes p scopes).2.Serves a := by
    intro scopes
    induction scopes with
    | nil => exact fun _ hl => hl
    | cons scope scopes ih => exact fun p hl => ih _ (hl.changeOf _)
  cases name with
  | none => exact h
  | some name => exact hscopes _ p h

end AttributeLookup

end Highlight
