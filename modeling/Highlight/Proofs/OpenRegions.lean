import Highlight.Proofs.Agreement

/-!
# What the stack of a state consists of

A line may enter rules of every kind, but only two of them stay open: regions and blocks. A rule
that matches by itself is passed by, one that only holds others is never entered, and the frames
that the texts of groups are read on inside go with these texts. So all frames of a state but the
lowest are those of regions and blocks, each with the text of what ends it exactly if that depends
on the match that opened it.

Together with what is known of the scopes of the frames, this is what a state **consists of**. It
holds whatever the engine reports – also where an injection reports the end of a region that is not
its own – and wherever reading stopped.
-/

namespace Highlight

open Grammar

variable {σ : Type}

/-- The pattern that ends what the rule of a number opens. -/
def Grammar.Ruleset.ending? (rules : Ruleset) (id : RuleId) : Option Pattern :=
  (rules.table.body? id).bind (·.ending?)

namespace LineState

variable {rules : Ruleset}

/-- **A frame is that of an open region** or block. The text of what ends it is kept in the frame
exactly if it refers to groups. -/
def IsOpenRegion (rules : Ruleset) (f : Frame) : Prop :=
  ∃ ending, rules.ending? f.rule = some ending ∧ f.closing.isSome = ending.hasReferences

/-- **A state consists of regions**: all its frames but the lowest are those of open regions and
blocks. -/
def Regions (rules : Ruleset) (s : LineState) : Prop :=
  ∀ f ∈ s.frames.dropLast, IsOpenRegion rules f

namespace Regions

theorem initial (id : RuleId) (scopes : AttributedPath) :
    (LineState.initial id scopes).Regions rules := fun f hf => by
  simp [LineState.initial, frames] at hf

/-- The frame of an open region may be put on top. -/
theorem push {s : LineState} (h : s.Regions rules) {f : Frame} (hf : IsOpenRegion rules f) :
    (s.push f).Regions rules :=
  List.forall_mem_cons.2 ⟨hf, h⟩

theorem pop {s : LineState} (h : s.Regions rules) : s.pop.Regions rules := by
  obtain ⟨top, below⟩ := s
  cases below with
  | nil => exact h
  | cons f fs => exact (List.forall_mem_cons.1 h).2

/-- The frame on top is that of an open region, unless it is the lowest. -/
theorem top {s : LineState} (h : s.Regions rules) (hbelow : s.below ≠ []) :
    IsOpenRegion rules s.top := by
  obtain ⟨top, below⟩ := s
  cases below with
  | nil => exact absurd rfl hbelow
  | cons f fs => exact h top List.mem_cons_self

theorem withContentScopes {s : LineState} (h : s.Regions rules) (scopes : AttributedPath) :
    (s.withContentScopes scopes).Regions rules := by
  obtain ⟨top, below⟩ := s
  cases below with
  | nil => exact fun f hf => by simp [LineState.withContentScopes, frames] at hf
  | cons f fs =>
    obtain ⟨htop, hbelow⟩ := List.forall_mem_cons.1 h
    exact List.forall_mem_cons.2 ⟨htop, hbelow⟩

theorem reset {s : LineState} (h : s.Regions rules) : s.reset.Regions rules := by
  unfold Regions
  rw [frames_reset, ← List.map_dropLast]
  exact List.forall_mem_map.2 h

/-- A region or a block is opened with the text of what ends it, if that refers to groups. -/
theorem opened {r : LineReader σ} {text : String} {c : Cursor} (h : c.state.Regions r.rules)
    (m : RuleMatch) {id : RuleId} {rule : Rule} (hfound : r.rules.table.get? id = some rule)
    {ending : Pattern} (hends : rule.body.ending? = some ending) :
    (r.opened text c m (r.entering text c m id rule) rule.contentName ending).Regions r.rules := by
  have hending : r.rules.ending? id = some ending := by
    rw [Ruleset.ending?, RuleTable.body?, hfound]
    exact hends
  unfold LineReader.opened
  dsimp only
  split
  · next hrefers => exact h.push ⟨ending, hending, hrefers.symm⟩
  · next hrefers =>
    have hclosing : ending.hasReferences = false := Bool.eq_false_iff.2 hrefers
    exact h.push ⟨ending, hending, hclosing.symm⟩

end Regions

/-- **Turns open regions and blocks**, and nothing else. -/
theorem keptByTurns_regions (r : LineReader σ) : r.KeptByTurns (·.Regions r.rules) where
  pop := fun _ h => h.pop
  turn := fun {text c m R} _ h _ hturn => by
    cases hturn with
    | rest => exact h
    | stuck => exact h.pop
    | stays => exact h.withContentScopes _
    | leaves m =>
      rw [Round.state, LineReader.Kept.state_advance]
      exact (h.withContentScopes _).pop
    | opens m id rule ending _ hfound hends =>
      rw [Round.state, LineReader.Kept.state_advance]
      exact h.opened m hfound hends
    | passes m =>
      rw [Round.state, LineReader.Kept.state_advance]
      exact h

/-! ## States of a session -/

/-- **What a state consists of**, said of all states that remain as one frame after another is
taken away. -/
structure WellFormed (rules : Ruleset) (s : LineState) : Prop where
  /-- The lowest frame is that of the grammar as a whole, and no text ends it. -/
  lowest : ∀ q ∈ s.chain, q.pop? = none →
    q.depth = 1 ∧ q.top.rule = rules.root ∧ q.top.closing = none
  /-- Every other frame is that of an open region or block, and stands on the one below. -/
  standing : ∀ q ∈ s.chain, ∀ below ∈ q.pop?, q.depth = below.depth + 1 ∧
    IsOpenRegion rules q.top ∧ q.top.nameScopes.Extends below.top.contentScopes
  /-- The scopes between the delimiters of a frame extend those of the delimiters. -/
  inside : ∀ q ∈ s.chain, q.top.contentScopes.Extends q.top.nameScopes

/-- No frame is below one that cannot be taken away. -/
theorem frames_of_pop?_eq_none {s : LineState} (h : s.pop? = none) : s.frames = [s.top] := by
  obtain ⟨top, below⟩ := s
  cases below with
  | nil => rfl
  | cons f fs => simp [pop?] at h

/-- What remains when the top frame is taken away are the frames below it. -/
theorem frames_of_pop?_eq_some {s below : LineState} (h : s.pop? = some below) :
    s.frames = s.top :: below.frames := by
  obtain ⟨top, fs⟩ := s
  cases fs with
  | nil => simp [pop?] at h
  | cons f fs =>
    obtain rfl := Option.some.inj h
    rfl

/-- A sound state that consists of regions is well-formed. -/
theorem WellFormed.of_sound {s : LineState} {good : AttributedPath → Prop}
    (hsound : s.Sound rules.root good) (hregions : s.Regions rules) : s.WellFormed rules := by
  have hchain : ∀ q ∈ s.chain, q.Sound rules.root good ∧ q.Regions rules :=
    forall_mem_chain (fun _ h => ⟨h.1.pop, h.2.pop⟩) ⟨hsound, hregions⟩
  refine ⟨fun q hq hpop => ?_, fun q hq below hpop => ?_, fun q hq => ?_⟩
  · have hframes := frames_of_pop?_eq_none hpop
    refine ⟨by rw [depth, hframes, List.length_singleton], (hchain q hq).1.lowest q.top ?_⟩
    rw [hframes]
    rfl
  · obtain ⟨hq, hqregions⟩ := hchain q hq
    have hframes := frames_of_pop?_eq_some hpop
    have hbelow : q.below = below.frames := (List.cons.inj hframes).2
    refine ⟨by rw [depth, hframes, List.length_cons, depth], ?_, ?_⟩
    · exact hqregions.top (by rw [hbelow]; exact List.cons_ne_nil _ _)
    · have hstanding := hq.standing
      rw [hframes] at hstanding
      exact (List.pairwise_cons.1 hstanding).1 below.top (Sound.top_mem below)
  · exact (hchain q hq).1.inside _ (Sound.top_mem q)

end LineState

namespace Session

/-- All states of a session consist of regions. -/
theorem Reached.regions {h : Highlighter σ} {name : String} (hrules : h.reader.rules.Sound name)
    {s : Session σ} (hs : Reached h s) : ∀ p ∈ s.states, p.Regions h.reader.rules :=
  have hturns : ∀ r : LineReader σ, r.rules = h.reader.rules →
      r.KeptByTurns (·.Regions h.reader.rules) :=
    fun r hr => hr ▸ LineState.keptByTurns_regions r
  hs.forall_states hrules (fun _ => .initial _ _) (fun _ hp => hp.reset) (fun r hr _ => hturns r hr)

/-- **All states that lines end in are well-formed**, whatever the engine and the limits, and
wherever reading stopped. -/
theorem Reached.wellFormed {catalog : Catalog} {d : Definition} {rules : Ruleset}
    (hrules : Ruleset.ofDefinition catalog d = .ok rules) {engine : Engine σ} {theme : Theme}
    {language : Nat} {configuration : Option Configuration} {s : Session σ}
    (hs : Reached (.make rules theme engine language configuration) s) :
    ∀ p ∈ s.states, p.WellFormed rules := fun p hp =>
  .of_sound ((hs.sound_of_ofDefinition hrules).states p hp)
    (hs.regions (Ruleset.sound_of_ofDefinition hrules) p hp)

/-- A grammar with a region that is closed by the text that opened it, and blocks of lines that
begin with a mark. -/
def quotations : Definition where
  scopeName := "text"
  patterns := [
    { name := some "quoted", contentName := some "inside", opening := some "<(.)",
      closing := some "\\1>", patterns := some [{ reference := some "$self" }] },
    { name := some "marked", opening := some "^-", continuing := some "^-" }]

/-- The session of that grammar with a line in which two regions are opened, and one in which they
are open as well as a block. -/
def quotationSession : Session Unit := regexSession quotations [["<a<b"], ["<a", "-"]]

/-- The states after its lines are well-formed, and are of several depths. -/
theorem wellFormed_quotations : ∃ p ∈ quotationSession.states, p.depth = 3 ∧
    ∃ q ∈ quotationSession.states, (q.frames.map (·.closing)) = [none, some "a>", none] ∧
      p.WellFormed (compiled quotations) ∧ q.WellFormed (compiled quotations) := by
  obtain ⟨hrules, hs⟩ := ofGrammar_regexSession (d := quotations) (by decide +kernel)
    [["<a<b"], ["<a", "-"]]
  have hstates : ∃ p ∈ quotationSession.states, p.depth = 3 ∧
      ∃ q ∈ quotationSession.states, (q.frames.map (·.closing)) = [none, some "a>", none] := by
    decide +kernel
  obtain ⟨p, hp, hdepth, q, hq, hclosing⟩ := hstates
  exact ⟨p, hp, hdepth, q, hq, hclosing, hs.wellFormed hrules p hp, hs.wellFormed hrules q hq⟩

end Session

end Highlight
