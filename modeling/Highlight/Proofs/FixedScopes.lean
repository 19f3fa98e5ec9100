import Highlight.Proofs.Turns

/-!
# Rules that fix their scopes

A frame has the scopes of the frame below it, those of the name of its rule, and between its
delimiters those of a second name. A rule without that second name, whose first refers to no group
of a match, **fixes its scopes**: whatever it matches, it adds as many. In the other cases the match
has a say – a name with groups may have any number of scopes, and where a region is closed without a
step forward, the scopes between its delimiters are gone although it stays open.
-/

namespace Highlight

open Grammar

variable {σ : Type}

/-- A rule **fixes its scopes** if it has no name for what is between its delimiters, and its own
name refers to no group. -/
def Grammar.Rule.fixesScopes (rule : Rule) : Bool :=
  rule.contentName.isNone && rule.name.all (!·.refers)

/-- How many scopes the name of a rule has, if it refers to no group. -/
def Grammar.Rule.scopeCount (rule : Rule) : Nat :=
  rule.name.elim 0 (fun t => (Text.split ' ' t.text).length)

/-- The rule of a number fixes its scopes. -/
def Grammar.Ruleset.fixesScopes (rules : Ruleset) (id : RuleId) : Bool :=
  (rules.table.get? id).any Rule.fixesScopes

theorem AttributedPath.length_push (a : Attribution) (p : AttributedPath) (name : String) :
    (a.push p (some name)).scopes.length = p.scopes.length + (Text.split ' ' name).length := by
  rw [Attribution.push]
  generalize Text.split ' ' name = names
  induction names generalizing p with
  | nil => rfl
  | cons scope names ih =>
    have hcons : (a.pushScope p scope).scopes.length = p.scopes.length + 1 := rfl
    rw [List.foldl_cons, ih, hcons, List.length_cons, Nat.add_assoc, Nat.add_comm 1]

/-- The scopes of a rule that fixes them. -/
theorem LineReader.length_nameScopes (r : LineReader σ) {rule : Rule}
    (h : rule.fixesScopes = true) (path : AttributedPath) (text : String) (captures : Captures) :
    (r.nameScopes path rule.name text captures).scopes.length =
        path.scopes.length + rule.scopeCount ∧
      r.nameScopes path rule.contentName text captures = path := by
  obtain ⟨name, contentName, body⟩ := rule
  obtain ⟨hcontent, hname⟩ := Bool.and_eq_true_iff.1 h
  obtain rfl : contentName = none := Option.isNone_iff_eq_none.1 hcontent
  refine ⟨?_, rfl⟩
  cases name with
  | none => rfl
  | some t =>
    have hresolve : t.resolve text captures = t.text := by
      unfold ScopeTemplate.resolve
      rw [if_neg]
      simpa using hname
    show (r.attribution.push path (some (t.resolve text captures))).scopes.length = _
    rw [hresolve, AttributedPath.length_push]
    rfl

namespace LineState

variable {rules : Ruleset}

/-- How many scopes the delimiters of a frame have, and how many there are between them. -/
def scopeCounts (f : Frame) : Nat × Nat :=
  (f.nameScopes.scopes.length, f.contentScopes.scopes.length)

/-- The scopes of a frame on a path are as many as its rule fixes, if it does. -/
def StandsFixed (rules : Ruleset) (f : Frame) (path : AttributedPath) : Prop :=
  ∀ rule, rules.table.get? f.rule = some rule → rule.fixesScopes = true →
    scopeCounts f = (path.scopes.length + rule.scopeCount, path.scopes.length + rule.scopeCount)

/-- A frame and those below it have as many scopes as their rules fix, and the lowest has one. -/
def FixedFrom (rules : Ruleset) (f : Frame) : List Frame → Prop
  | [] => scopeCounts f = (1, 1)
  | g :: fs => StandsFixed rules f g.contentScopes ∧ FixedFrom rules g fs

/-- **The scopes of a state are fixed** where its rules fix them. -/
def Fixed (rules : Ruleset) (s : LineState) : Prop := FixedFrom rules s.top s.below

namespace Fixed

theorem initial (rules : Ruleset) (rule : RuleId) (a : Attribution) (name : String) :
    (LineState.initial rule (a.root name)).Fixed rules := rfl

theorem pop {s : LineState} (h : s.Fixed rules) : s.pop.Fixed rules := by
  obtain ⟨top, below⟩ := s
  cases below with
  | nil => exact h
  | cons f fs => exact h.2

theorem reset {s : LineState} (h : s.Fixed rules) : s.reset.Fixed rules := by
  rw [Fixed, LineState.reset, getD_remade?]
  obtain ⟨top, below⟩ := s
  induction below generalizing top with
  | nil => exact h
  | cons f fs ih => exact ⟨h.1, ih f h.2⟩

/-- Where a rule fixes its scopes, there are no others between the delimiters. -/
theorem closed {c : Cursor} (h : c.state.Fixed rules) : (LineReader.closed c).Fixed rules := by
  obtain ⟨⟨top, below⟩, position, anchor, first⟩ := c
  have hcounts : ∀ n, scopeCounts top = (n, n) →
      scopeCounts { top with contentScopes := top.nameScopes } = (n, n) :=
    fun n hn => Prod.ext (Prod.mk.inj hn).1 (Prod.mk.inj hn).1
  cases below with
  | nil => exact hcounts 1 h
  | cons f fs => exact ⟨fun rule hrule hfixes => hcounts _ (h.1 rule hrule hfixes), h.2⟩

/-- The frame of a rule that is entered stands fixed on the scopes on top. -/
theorem opened {r : LineReader σ} (text : String) {c : Cursor} (h : c.state.Fixed r.rules)
    (m : RuleMatch) {id : RuleId} {rule : Rule} (hrule : r.rules.table.get? id = some rule)
    (ending : Pattern) :
    (r.opened text c m (r.entering text c m id rule) rule.contentName ending).Fixed r.rules := by
  have hstands : ∀ f : Frame, f.rule = id →
      f.nameScopes = (r.entering text c m id rule).nameScopes →
      f.contentScopes = r.nameScopes f.nameScopes rule.contentName text m.captures →
        StandsFixed r.rules f c.state.top.contentScopes := by
    intro f hf hname hcontent rule' hrule' hfixes
    rw [hf] at hrule'
    obtain rfl : rule = rule' := Option.some.inj (hrule.symm.trans hrule')
    have hlength := (r.length_nameScopes hfixes c.state.top.contentScopes text m.captures).1
    rw [(r.length_nameScopes hfixes _ text m.captures).2] at hcontent
    rw [scopeCounts, hcontent, hname]
    exact Prod.ext hlength hlength
  unfold LineReader.opened
  dsimp only
  split
  · exact ⟨hstands _ rfl rfl rfl, h⟩
  · exact ⟨hstands _ rfl rfl rfl, h⟩

end Fixed

/-- **Turns keep scopes fixed.** -/
theorem keptByTurns_fixed (r : LineReader σ) : r.KeptByTurns (·.Fixed r.rules) where
  pop := fun _ h => h.pop
  turn := fun {text c m R} _ h _ hturn => by
    cases hturn with
    | rest => exact h
    | stuck => exact h.pop
    | stays => exact h.closed
    | leaves m =>
      rw [Round.state, LineReader.Kept.state_advance]
      exact h.closed.pop
    | opens m id rule ending hrole hfound =>
      rw [Round.state, LineReader.Kept.state_advance]
      exact h.opened text m hfound ending
    | passes m =>
      rw [Round.state, LineReader.Kept.state_advance]
      exact h

end LineState

end Highlight
