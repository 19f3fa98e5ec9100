import Highlight.Proofs.Missing

/-!
# Adding a grammar of a name that is taken

A grammar that is added takes the place of one of the same name. One expects that the registry is
then as if the first had never been added, whatever is loaded from it later, and so it is for all
that is looked up by name.

But a grammar may ask to be injected into others, and that is noted by the names of those others.
What is noted is added to and never taken back. So the second grammar is injected wherever the first
one asked for, and takes its place entirely just if nothing is left over: if it asks for each of
these itself, or was noted there already.

That nothing else makes a difference is shown for all that may be done with a registry. Two
registries **agree** if they have the same grammars, and the same to be injected into each, though
they may note these in another order. Whatever is done, registries that agree go on to agree, and
what is loaded from them is the same.
-/

namespace Highlight

open Grammar

variable {σ : Type}

namespace Grammar.Catalog

/-! ## What is noted of injections -/

variable {c c' : Catalog}

/-- What is to be injected into a grammar after one was noted for some. -/
theorem injectionsInto_foldl_inject (targets : List String) (c : Catalog)
    (injected target : String) :
    (targets.foldl (fun c t => c.inject t injected) c).injectionsInto target =
      if target ∈ targets ∧ injected ∉ c.injectionsInto target then
        c.injectionsInto target ++ [injected]
      else c.injectionsInto target := by
  induction targets generalizing c with
  | nil => simp
  | cons t targets ih =>
    rw [List.foldl_cons, ih, injectionsInto_inject]
    by_cases hnoted : injected ∈ c.injectionsInto target
    · simp [hnoted]
    · obtain rfl | ht := eq_or_ne target t
      · simp [hnoted]
      · simp [hnoted, ht]

/-- What is to be injected into a grammar after another was added, with none to be injected into
that other. -/
theorem injectionsInto_add (c : Catalog) (d : Definition) (target : String) :
    (c.add d []).injectionsInto target =
      if target ∈ d.injectTo ∧ d.scopeName ∉ c.injectionsInto target then
        c.injectionsInto target ++ [d.scopeName]
      else c.injectionsInto target :=
  injectionsInto_foldl_inject d.injectTo c d.scopeName target

/-! ## Catalogs that agree -/

/-- **Catalogs agree** if they have the same grammars, and the same to be injected into each. -/
structure AgreesWith (c c' : Catalog) : Prop where
  /-- The grammars. -/
  grammars : c.grammars = c'.grammars
  /-- The grammars to be injected. -/
  injectionsInto : ∀ scope, c.injectionsInto scope = c'.injectionsInto scope

namespace AgreesWith

theorem grammar? (h : c.AgreesWith c') (scope : String) : c.grammar? scope = c'.grammar? scope :=
  congrArg (Keyed.get? scope) h.grammars

theorem inject (h : c.AgreesWith c') (scope injected : String) :
    (c.inject scope injected).AgreesWith (c'.inject scope injected) where
  grammars := by rw [grammars_inject, grammars_inject, h.grammars]
  injectionsInto := fun target => by
    rw [injectionsInto_inject, injectionsInto_inject, h.injectionsInto]

theorem foldl_inject {α : Type} (f g : α → String) (xs : List α) (h : c.AgreesWith c') :
    (xs.foldl (fun c x => c.inject (f x) (g x)) c).AgreesWith
      (xs.foldl (fun c x => c.inject (f x) (g x)) c') := by
  induction xs generalizing c c' with
  | nil => exact h
  | cons x xs ih => exact ih (h.inject (f x) (g x))

theorem add (h : c.AgreesWith c') (d : Definition) (injected : List String) :
    (c.add d injected).AgreesWith (c'.add d injected) where
  grammars := by rw [grammars_add, grammars_add, h.grammars]
  injectionsInto := ((h.foldl_inject (fun _ => d.scopeName) (fun i => i) injected).foldl_inject
    (fun t => t) (fun _ => d.scopeName) d.injectTo).injectionsInto

end AgreesWith

end Grammar.Catalog

/-! ## Loading from registries that agree -/

namespace Grammar

variable {c c' : Catalog}

namespace Compile

/-- What a rule does is compiled as the grammars of the catalog say. -/
theorem body_congr (h : c.grammars = c'.grammars) (root : Definition) :
    body c root = body c' root := by
  obtain ⟨grammars, injections⟩ := c
  obtain ⟨_, injections'⟩ := c'
  obtain rfl := h
  rfl

/-- An injected grammar is compiled as the grammars of the catalog say. -/
theorem injectedGrammar_congr (h : c.grammars = c'.grammars) (root : Definition) :
    injectedGrammar c root = injectedGrammar c' root := by
  obtain ⟨grammars, injections⟩ := c
  obtain ⟨_, injections'⟩ := c'
  obtain rfl := h
  rfl

theorem rule_congr (h : c.grammars = c'.grammars) (root : Definition) (depth : Nat) :
    rule c root depth = rule c' root depth := by
  induction depth with
  | zero => rfl
  | succ depth ih =>
    funext s l
    simp only [rule, body_congr h, ih]

end Compile

/-- Catalogs that agree are compiled alike. -/
theorem Catalog.AgreesWith.ofDefinition (h : c.AgreesWith c') (root : Definition) :
    Ruleset.ofDefinition c root = Ruleset.ofDefinition c' root := by
  have hsize : c.size = c'.size := congrArg (Keyed.total Definition.size) h.grammars
  simp only [Ruleset.ofDefinition, Compile.injections, h.injectionsInto, hsize,
    Compile.rule_congr h.grammars, Compile.injectedGrammar_congr h.grammars]

/-- A round asks for the same of catalogs that agree. -/
theorem Catalog.AgreesWith.next (h : c.AgreesWith c') (d : Dependencies) :
    d.next c = d.next c' :=
  Dependencies.next_congr (fun n _ => h.grammar? n.scope) (h.grammar? d.root)
    (fun n _ _ => h.injectionsInto n.scope)

end Grammar

namespace Fetching

/-- What has been fetched agrees, and so does what the source was asked for. -/
structure AgreesWith (f f' : Fetching) : Prop where
  /-- The catalog. -/
  catalog : f.catalog.AgreesWith f'.catalog
  /-- The scopes asked for. -/
  requested : f.requested = f'.requested

namespace AgreesWith

variable {f f' : Fetching}

theorem ensured (h : f.AgreesWith f') (source : Option Source) (scope : String) :
    (f.ensured source scope).AgreesWith (f'.ensured source scope) := by
  unfold Fetching.ensured
  rw [h.catalog.grammar? scope]
  split
  · exact h
  cases source with
  | none => exact h
  | some source =>
    dsimp only
    cases source.grammar? scope with
    | none => exact ⟨h.catalog, congrArg (scope :: ·) h.requested⟩
    | some d => exact ⟨h.catalog.add d _, congrArg (scope :: ·) h.requested⟩

theorem fetched (h : f.AgreesWith f') (source : Option Source) (queue : List Need) :
    (f.fetched source queue).AgreesWith (f'.fetched source queue) := by
  induction queue generalizing f f' with
  | nil => exact h
  | cons n queue ih => exact ih (h.ensured source n.scope)

end AgreesWith

end Fetching

/-- **Rounds from catalogs that agree** end alike, if neither are cut short: the limits may differ,
since they count what is noted. -/
theorem Fetch.rounds_agree {source : Option Source} {limit limit' : Nat} {d : Dependencies}
    {f f' : Fetching} (h : f.AgreesWith f')
    (hends : ∀ g, (rounds source limit d).run f ≠ .error .rounds g)
    (hends' : ∀ g, (rounds source limit' d).run f' ≠ .error .rounds g) :
    (∃ g g', (rounds source limit d).run f = .ok () g ∧
        (rounds source limit' d).run f' = .ok () g' ∧ g.AgreesWith g') ∨
      ∃ e g g', (rounds source limit d).run f = .error e g ∧
        (rounds source limit' d).run f' = .error e g' ∧ g.AgreesWith g' := by
  induction limit generalizing limit' d f f' with
  | zero => exact absurd rfl (hends f)
  | succ limit ih =>
    cases limit' with
    | zero => exact absurd rfl (hends' f')
    | succ limit' =>
    simp only [run_rounds_succ] at hends hends' ⊢
    have hfetched := h.fetched source d.queue
    rw [hfetched.catalog.next d] at hends ⊢
    by_cases hempty : d.queue.isEmpty
    · simp only [hempty, if_true]
      exact .inl ⟨f, f', rfl, rfl, h⟩
    simp only [hempty] at hends hends' ⊢
    cases hnext : d.next (f'.fetched source d.queue).catalog with
    | ok d' =>
      simp only [hnext] at hends hends' ⊢
      exact ih hfetched hends hends'
    | error e => exact .inr ⟨_, _, _, rfl, rfl, hfetched⟩

namespace Registry

/-- The rounds of a load are not cut short. -/
theorem run_rounds_ne (r : Registry σ) (scope : String) (f : Fetching) :
    (Fetch.rounds r.source r.roundLimit (.ofRoot scope)).run ⟨r.catalog, []⟩ ≠
      .error .rounds f := by
  obtain ⟨f', h⟩ | ⟨f', h⟩ := r.rounds_ends scope <;> simp [h]

/-- **Registries agree** if they have the same theme, source and engine, and their catalogs
agree. -/
structure AgreesWith (r r' : Registry σ) : Prop where
  /-- The theme. -/
  theme : r.theme = r'.theme
  /-- The catalog. -/
  catalog : r.catalog.AgreesWith r'.catalog
  /-- The source. -/
  source : r.source = r'.source
  /-- The engine. -/
  engine : r.engine = r'.engine

namespace AgreesWith

variable {r r' : Registry σ}

theorem add (h : r.AgreesWith r') (d : Definition) (injected : List String) :
    (r.add d injected).AgreesWith (r'.add d injected) :=
  ⟨h.theme, h.catalog.add d injected, h.source, h.engine⟩

/-- **What is loaded from registries that agree** is the same, the source is asked for the same, and
the registries go on to agree. -/
theorem load (h : r.AgreesWith r') (scope : String) (language : Nat)
    (configuration : Option Configuration) :
    (r.load scope language configuration).1 = (r'.load scope language configuration).1 ∧
      (r.load scope language configuration).2.1.AgreesWith
        (r'.load scope language configuration).2.1 ∧
      (r.load scope language configuration).2.2 = (r'.load scope language configuration).2.2 := by
  have hbegins : Fetching.AgreesWith ⟨r.catalog, []⟩ ⟨r'.catalog, []⟩ := ⟨h.catalog, rfl⟩
  have hends := r'.run_rounds_ne scope
  rw [← h.source] at hends
  obtain ⟨g, g', hrun, hrun', hg⟩ | ⟨e, g, g', hrun, hrun', hg⟩ :=
    Fetch.rounds_agree hbegins (r.run_rounds_ne scope) hends
  · rw [h.source] at hrun'
    simp only [Registry.load, hrun, hrun']
    refine ⟨?_, ⟨h.theme, hg.catalog, h.source, h.engine⟩, congrArg List.reverse hg.requested⟩
    rw [hg.catalog.grammar? scope]
    cases g'.catalog.grammar? scope with
    | none => rfl
    | some d => simp only [hg.catalog.ofDefinition d, h.theme, h.engine]
  · rw [h.source] at hrun'
    simp only [Registry.load, hrun, hrun']
    exact ⟨trivial, ⟨h.theme, hg.catalog, h.source, h.engine⟩, congrArg List.reverse hg.requested⟩

end AgreesWith

/-! ## Whatever is done -/

/-- **What may be done with a registry.** -/
inductive Action (σ : Type) where
  /-- A grammar is added, with the grammars to be injected into it. -/
  | add (d : Definition) (injected : List String)
  /-- A grammar is loaded. -/
  | load (scope : String) (language : Nat) (configuration : Option Configuration)
  /-- The registry is given another theme, source and engine. -/
  | equip (theme : Theme) (source : Option Source) (engine : Engine σ)

/-- **What an action yields**, and the registry after it. A load yields the highlighter or the
error, and the scopes that the source is asked for. -/
def act (r : Registry σ) :
    Action σ → Option (Except LoadError (Highlighter σ) × List String) × Registry σ
  | .add d injected => (none, r.add d injected)
  | .load scope language configuration =>
    let (made, r', requested) := r.load scope language configuration
    (some (made, requested), r')
  | .equip theme source engine => (none, ⟨theme, r.catalog, source, engine⟩)

/-- What actions yield, one after another. -/
def answers (r : Registry σ) :
    List (Action σ) → List (Option (Except LoadError (Highlighter σ) × List String))
  | [] => []
  | a :: actions => (r.act a).1 :: (r.act a).2.answers actions

/-- An action yields the same of registries that agree, and they go on to agree. -/
theorem AgreesWith.act {r r' : Registry σ} (h : r.AgreesWith r') (a : Action σ) :
    (r.act a).1 = (r'.act a).1 ∧ (r.act a).2.AgreesWith (r'.act a).2 := by
  cases a with
  | add d injected => exact ⟨rfl, h.add d injected⟩
  | load scope language configuration =>
    obtain ⟨hmade, hagrees, hrequested⟩ := h.load scope language configuration
    exact ⟨congrArg some (Prod.ext hmade hrequested), hagrees⟩
  | equip theme source engine => exact ⟨rfl, rfl, h.catalog, rfl, rfl⟩

/-- **Registries that agree cannot be told apart** by what is done with them. -/
theorem AgreesWith.answers {r r' : Registry σ} (h : r.AgreesWith r') (actions : List (Action σ)) :
    r.answers actions = r'.answers actions := by
  induction actions generalizing r r' with
  | nil => rfl
  | cons a actions ih =>
    obtain ⟨hanswer, hagrees⟩ := h.act a
    rw [Registry.answers, Registry.answers, hanswer, ih hagrees]

/-! ## A grammar in the place of another -/

/-- **The second of two grammars replaces the first** in a registry: once it is added, it makes no
difference that the first was added before. -/
structure Replaces (r : Registry σ) (first second : Definition) : Prop where
  /-- The same is to be injected into each grammar. -/
  injectionsInto : ∀ scope, ((r.add first []).add second []).catalog.injectionsInto scope =
    (r.add second []).catalog.injectionsInto scope
  /-- Whatever is done, all that is loaded is the same. -/
  answers : ∀ actions, ((r.add first []).add second []).answers actions =
    (r.add second []).answers actions

/-- What is to be injected into a grammar is the same without the first just if the second asks for
it where the first does, or it was noted there before. -/
theorem injectionsInto_add_add_iff {c : Catalog} {first second : Definition}
    (hname : first.scopeName = second.scopeName) (target : String) :
    ((c.add first []).add second []).injectionsInto target =
        (c.add second []).injectionsInto target ↔
      (target ∈ first.injectTo →
        target ∈ second.injectTo ∨ first.scopeName ∈ c.injectionsInto target) := by
  rw [Catalog.injectionsInto_add, Catalog.injectionsInto_add, Catalog.injectionsInto_add, hname]
  by_cases hnoted : second.scopeName ∈ c.injectionsInto target
  · simp [hnoted]
  · by_cases hfirst : target ∈ first.injectTo <;> by_cases hsecond : target ∈ second.injectTo <;>
      simp [hnoted, hfirst, hsecond]

/-- **When a grammar replaces one of the same name**: nothing may be left of what the first asked to
be injected into. -/
theorem replaces_iff {r : Registry σ} {first second : Definition}
    (hname : first.scopeName = second.scopeName) :
    r.Replaces first second ↔ ∀ target ∈ first.injectTo,
      target ∈ second.injectTo ∨ first.scopeName ∈ r.catalog.injectionsInto target := by
  constructor
  · exact fun h target => (injectionsInto_add_add_iff hname target).1 (h.injectionsInto target)
  · intro h
    have hinjections := fun target => (injectionsInto_add_add_iff hname target).2 (h target)
    have hgrammars : ((r.add first []).add second []).catalog.grammars =
        (r.add second []).catalog.grammars := by
      simp only [Registry.add, Catalog.grammars_add, hname, Keyed.put_put]
    have hagrees : ((r.add first []).add second []).AgreesWith (r.add second []) :=
      ⟨rfl, ⟨hgrammars, hinjections⟩, rfl, rfl⟩
    exact ⟨hinjections, hagrees.answers⟩

/-- A registry of one grammar. -/
def lettersOnly : Registry Unit :=
  (Registry.empty (.literal Unit)).add
    { scopeName := "text", patterns := [{ pattern := some "a", name := some "letter" }] } []

/-- A grammar for a mark, which asks to be injected into some others. -/
def marks (pattern : String) (injectTo : List String) : Definition where
  scopeName := "marks"
  patterns := [{ pattern := some pattern, name := some "mark" }]
  injectionSelector := some "text"
  injectTo := injectTo

/-- A grammar for another mark, injected into one grammar more, takes the place of the first. -/
theorem replaces_marks :
    (marks "!" ["text"]).scopeName = (marks "?" ["notes", "text"]).scopeName ∧
      lettersOnly.Replaces (marks "!" ["text"]) (marks "?" ["notes", "text"]) := by
  have hname : (marks "!" ["text"]).scopeName = (marks "?" ["notes", "text"]).scopeName := rfl
  exact ⟨hname, (replaces_iff hname).2 (by decide)⟩

/-- **A request to be injected outlives the grammar that made it.** The second grammar does not ask
to be injected into the text, but it is if the first did. -/
theorem not_replaces_withdrawn :
    let both := (lettersOnly.add (marks "!" ["text"]) []).add (marks "!" []) []
    let only := lettersOnly.add (marks "!" []) []
    both.catalog.injectionsInto "text" = ["marks"] ∧ only.catalog.injectionsInto "text" = [] ∧
      (both.load "text" 0 none).1.toOption.map (·.reader.rules.table.size) = some 4 ∧
      (only.load "text" 0 none).1.toOption.map (·.reader.rules.table.size) = some 2 ∧
      ¬ lettersOnly.Replaces (marks "!" ["text"]) (marks "!" []) := by
  intro both only
  have hboth : (both.load "text" 0 none).1.toOption.map (·.reader.rules.table.size) = some 4 := by
    decide +kernel
  have honly : (only.load "text" 0 none).1.toOption.map (·.reader.rules.table.size) = some 2 := by
    decide +kernel
  refine ⟨by decide, by decide, hboth, honly, fun h => ?_⟩
  have hanswers := h.answers [.load "text" 0 none]
  have hmade : some (both.load "text" 0 none).1 = some (only.load "text" 0 none).1 :=
    congrArg (Option.map Prod.fst) (List.cons.inj hanswers).1
  rw [Option.some.inj hmade, honly] at hboth
  simp at hboth

end Registry

end Highlight
