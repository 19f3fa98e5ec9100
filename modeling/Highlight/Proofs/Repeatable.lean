import Highlight.Proofs.Unnoticed

/-!
# Lines that are read again

What a line yields is told by the line and the state that it is read from, whatever was read
before – if closing texts are known in time and the engine is oblivious. The cache that a session
has built up by then is a faithful one, and reading overlooks which.

Where closing texts are not known in time, a line may well yield something else when it is read
again. Of the text `<b|!!xx>` in the grammar below, the second group of `<(\w)(.*?)>` is read on by
a region that ends at a bar. After the bar, reading goes on inside the region that is being opened,
the closing pattern of which is not resolved yet. It has the text that it was given last: `(!)\1`
when the line is read for the first time, and `(!)b` when it is read again.
-/

namespace Highlight

open Grammar

variable {σ : Type}

/-- What regular expressions find: the plan of their engine. -/
def Regex.plan : Plan := fun patterns =>
  ((patterns.mapM Expression.ofText).map search).mapError (·.message)

theorem Engine.keepsTo_regex : (Engine.regex σ).KeepsTo Regex.plan := by
  intro patterns state
  unfold Engine.regex Regex.plan
  dsimp only
  cases patterns.mapM Regex.Expression.ofText with
  | ok rs => exact ⟨_, rfl, fun text start state => rfl⟩
  | error e => rfl

/-- **The engine of regular expressions is oblivious.** -/
theorem Engine.oblivious_regex : (Engine.regex σ).Oblivious := ⟨Regex.plan, keepsTo_regex⟩

/-- **The engine of plain texts is oblivious.** -/
theorem Engine.oblivious_literal : (Engine.literal σ).Oblivious := by
  refine ⟨fun patterns => if (patterns.map String.toList).any (Literal.occurs Literal.badMark)
    then .error "bad literal" else .ok (Literal.search (patterns.map String.toList)),
    fun patterns state => ?_⟩
  dsimp only
  unfold Engine.literal
  dsimp only
  split
  · next hfind =>
    split at hfind
    · simp at hfind
    · next hgood =>
      obtain rfl := Except.ok.inj hfind
      rw [if_neg hgood]
      exact ⟨_, rfl, fun text start state => rfl⟩
  · next hreason =>
    split at hreason
    · next hbad =>
      obtain rfl := Except.error.inj hreason
      rw [if_pos hbad]
      rfl
    · simp at hreason

/-- Two caches are faithful. -/
def BothFaithful (plan : Plan) (table : RuleTable) (s t : Searching σ) : Prop :=
  s.cache.Faithful plan table ∧ t.cache.Faithful plan table

namespace Highlighter

variable {h : Highlighter σ} {plan : Plan}

/-- **Reading a line** overlooks which faithful cache there is. -/
theorem read_overlooks (htable : h.reader.rules.table.Sound) (hplan : h.reader.engine.KeepsTo plan)
    (htimely : h.reader.rules.Timely) {previous : Option LineState}
    (hstate : (previous.elim h.initialState (·.reset)).AllKnown h.reader.rules) (line : String)
    (budget : Option Nat) :
    Overlooks (BothFaithful plan h.reader.rules.table) (h.read line previous budget)
      (fun _ => True) := by
  intro s t hst
  have hline : h.reader.Unnoticed plan (h.reader.readLine (line ++ "\n")
      (previous.elim h.initialState (·.reset)) previous.isNone budget) (fun _ => True) :=
    LineReader.Unnoticed.readLine htable hplan htimely hstate _ budget
  have hline := hline ⟨s, {}⟩ ⟨t, {}⟩ ⟨rfl, hst.1, hst.2⟩
  rw [run_read, run_read]
  split at hline
  · next hs ht =>
    obtain ⟨rfl, -, halike⟩ := hline
    rw [hs, ht]
    exact ⟨by rw [halike.segments], trivial, halike.left, halike.right⟩
  · next hs ht =>
    obtain ⟨rfl, halike⟩ := hline
    rw [hs, ht]
    exact ⟨rfl, halike.left, halike.right⟩
  · exact hline.elim

end Highlighter

namespace LineState

/-- The closing text of an open region is known. -/
theorem IsOpenRegion.closingKnown {rules : Ruleset} {f : Frame} (h : IsOpenRegion rules f) :
    ClosingKnown rules f := by
  obtain ⟨ending, hending, hclosing⟩ := h
  obtain ⟨body, hbody, hends⟩ := Option.bind_eq_some_iff.1 hending
  intro hrefers
  rw [RuleTable.refersBack, hbody] at hrefers
  rw [hclosing]
  cases body with
  | region opening closing last inside =>
    obtain rfl := Option.some.inj hends
    exact hrefers
  | single | choice | block | capture => simp [RuleBody.refersBack] at hrefers

/-- All closing texts are known of a state that consists of regions. -/
theorem Sound.allKnown {rules : Ruleset} {name : String} (hrules : rules.Sound name)
    {s : LineState} {good : AttributedPath → Prop} (hsound : s.Sound rules.root good)
    (hregions : s.Regions rules) : s.AllKnown rules := by
  intro f hf
  rw [← List.dropLast_concat_getLast (l := s.frames) (List.cons_ne_nil _ _)] at hf
  obtain hf | hf := List.mem_append.1 hf
  · exact (hregions f hf).closingKnown
  -- the lowest frame is that of a rule that only holds others
  · obtain ⟨inside, hroot⟩ := hrules.root
    obtain ⟨hrule, -⟩ := hsound.lowest f (by
      rw [List.mem_singleton.1 hf]
      exact List.getLast?_eq_some_getLast _)
    intro hrefers
    rw [hrule, RuleTable.refersBack, RuleTable.body?, hroot] at hrefers
    simp [RuleBody.refersBack] at hrefers

end LineState

namespace Session

/-- **A line yields the same** in two sessions, from the same state, with the same budget and within
the same limits, whatever they are. -/
structure YieldsSame (s t : Session σ) (line : String) (previous : Option LineState)
    (budget : Option Nat) : Prop where
  /-- The tokens and the state at the end of the line, or the error. -/
  tokens : ∀ limits,
    outcome ((s.highlighter.withLimits limits).tokenize line previous budget) s.searching =
      outcome ((t.highlighter.withLimits limits).tokenize line previous budget) t.searching
  /-- The runs and the state at the end of the line, or the error. -/
  runs : ∀ limits,
    outcome ((s.highlighter.withLimits limits).tokenizeRuns line previous budget) s.searching =
      outcome ((t.highlighter.withLimits limits).tokenizeRuns line previous budget) t.searching

section

variable {catalog : Catalog} {d : Definition} {rules : Ruleset} {engine : Engine σ}
  {theme : Theme} {language : Nat} {configuration : Option Configuration}

/-- All closing texts are known of the state that a line is read from. -/
theorem Reached.allKnown (hrules : Ruleset.ofDefinition catalog d = .ok rules) {s : Session σ}
    (hs : Reached (.make rules theme engine language configuration) s)
    {previous : Option LineState}
    (hprevious : ∀ p ∈ previous, ∃ o,
      Reached (.make rules theme engine language configuration) o ∧ p ∈ o.states) :
    (previous.elim s.highlighter.initialState (·.reset)).AllKnown rules := by
  have hsound := Ruleset.sound_of_ofDefinition hrules
  cases previous with
  | none =>
    have hrules' : s.highlighter.reader.rules = rules := (hs.sound_of_ofDefinition hrules).rules
    have hsound' : s.highlighter.reader.rules.Sound d.scopeName := by rwa [hrules']
    rw [Option.elim_none, Highlighter.initialState_eq hsound', hrules']
    have hinitial : (LineState.initial rules.root (s.highlighter.reader.attribution.root
        d.scopeName)).Sound rules.root (fun _ => True) := .initial trivial
    exact hinitial.allKnown hsound (.initial _ _)
  | some p =>
    obtain ⟨o, ho, hp⟩ := hprevious p rfl
    exact ((ho.sound_of_ofDefinition hrules).states p hp).reset.allKnown hsound
      (ho.regions hsound p hp).reset

/-- **What reading a line of a session overlooks**: which faithful cache it has. -/
theorem Reached.read_overlooks (hrules : Ruleset.ofDefinition catalog d = .ok rules)
    (htimely : rules.Timely) {plan : Plan} (hplan : engine.KeepsTo plan) {s : Session σ}
    (hs : Reached (.make rules theme engine language configuration) s) (line : String)
    {previous : Option LineState}
    (hprevious : ∀ p ∈ previous, ∃ o,
      Reached (.make rules theme engine language configuration) o ∧ p ∈ o.states)
    (budget : Option Nat) :
    Overlooks (BothFaithful plan rules.table) (s.highlighter.read line previous budget)
      (fun _ => True) := by
  have hknown := hs.allKnown hrules hprevious
  have hs := hs.sound_of_ofDefinition hrules
  have hrules' : s.highlighter.reader.rules = rules := hs.rules
  have hengine : s.highlighter.reader.engine = engine := hs.engine
  rw [← hrules'] at hknown htimely ⊢
  rw [← hengine] at hplan
  have hsound : s.highlighter.reader.rules.Sound d.scopeName :=
    hrules'.symm ▸ Ruleset.sound_of_ofDefinition hrules
  exact Highlighter.read_overlooks hsound.table hplan htimely hknown line budget

/-- **The cache of a session is faithful**, whatever was read. -/
theorem Reached.faithful (hrules : Ruleset.ofDefinition catalog d = .ok rules)
    (htimely : rules.Timely) {plan : Plan} (hplan : engine.KeepsTo plan) {s : Session σ}
    (hs : Reached (.make rules theme engine language configuration) s) :
    s.searching.cache.Faithful plan rules.table := by
  induction hs with
  | begins engine => exact .empty
  | @reads s line previous budget segments state stopped searching before known run ih =>
    have hread := before.read_overlooks hrules htimely hplan line
      (fun p hp => ⟨s, before, known p hp⟩) budget s.searching s.searching ⟨ih, ih⟩
    rw [run] at hread
    exact hread.2.2.1
  | @fails s line previous budget e searching before known run ih =>
    have hread := before.read_overlooks hrules htimely hplan line
      (fun p hp => ⟨s, before, known p hp⟩) budget s.searching s.searching ⟨ih, ih⟩
    rw [run] at hread
    exact hread.2.1
  | retheme theme before ih => exact ih
  | relimits limits before ih => exact ih
  | shares engine before ih => exact ⟨ih.inside, ih.continuing⟩

/-- Sessions of a highlighter that have the same theme have the same highlighter, within the same
limits. -/
theorem Reached.withLimits_eq {h : Highlighter σ} {s t : Session σ} (hs : Reached h s)
    (ht : Reached h t)
    (hsame : s.highlighter.reader.attribution.theme = t.highlighter.reader.attribution.theme)
    (limits : Limits) : s.highlighter.withLimits limits = t.highlighter.withLimits limits := by
  have heq : ∀ {o : Session σ}, Reached h o → o.highlighter.withLimits limits =
      (h.withTheme o.highlighter.reader.attribution.theme).withLimits limits :=
    fun ho => congrArg (·.withLimits limits) ho.highlighter_eq
  rw [heq hs, heq ht, hsame]

/-- **Reading a line yields the same whatever was read before**, within any limits. -/
theorem Reached.outcome_read_eq (hrules : Ruleset.ofDefinition catalog d = .ok rules)
    (htimely : rules.Timely) (hengine : engine.Oblivious) {s t : Session σ}
    (hs : Reached (.make rules theme engine language configuration) s)
    (ht : Reached (.make rules theme engine language configuration) t)
    (hsame : s.highlighter.reader.attribution.theme = t.highlighter.reader.attribution.theme)
    (limits : Limits) (line : String) {previous : Option LineState}
    (hprevious : ∀ p ∈ previous, ∃ o,
      Reached (.make rules theme engine language configuration) o ∧ p ∈ o.states)
    (budget : Option Nat) :
    outcome ((s.highlighter.withLimits limits).read line previous budget) s.searching =
      outcome ((t.highlighter.withLimits limits).read line previous budget) t.searching := by
  obtain ⟨plan, hplan⟩ := hengine
  rw [← hs.withLimits_eq ht hsame]
  exact ((hs.relimits limits).read_overlooks hrules htimely hplan line hprevious budget).outcome_eq
    ⟨hs.faithful hrules htimely hplan, ht.faithful hrules htimely hplan⟩

/-- **Tokens and runs are the same whatever was read before**: in any two sessions of a highlighter
with the same theme, from any state that a line ended in, if closing texts are known in time and the
engine is oblivious. -/
theorem Reached.yieldsSame (hrules : Ruleset.ofDefinition catalog d = .ok rules)
    (htimely : rules.Timely) (hengine : engine.Oblivious) {s t : Session σ}
    (hs : Reached (.make rules theme engine language configuration) s)
    (ht : Reached (.make rules theme engine language configuration) t)
    (hsame : s.highlighter.reader.attribution.theme = t.highlighter.reader.attribution.theme)
    (line : String) {previous : Option LineState}
    (hprevious : ∀ p ∈ previous, ∃ o,
      Reached (.make rules theme engine language configuration) o ∧ p ∈ o.states)
    (budget : Option Nat) : s.YieldsSame t line previous budget := by
  have hlimits := hs.withLimits_eq ht hsame
  have hread : ∀ limits,
      outcome ((t.highlighter.withLimits limits).read line previous budget) s.searching =
        outcome ((t.highlighter.withLimits limits).read line previous budget) t.searching := by
    intro limits
    rw [← hs.outcome_read_eq hrules htimely hengine ht hsame limits line hprevious budget, hlimits]
  refine ⟨fun limits => ?_, fun limits => ?_⟩
  · rw [hlimits]
    exact outcome_bind_pure_eq _ (hread limits)
  · rw [hlimits]
    exact outcome_bind_pure_eq _ (hread limits)

end

/-- The session of a grammar has the same highlighter whatever was read. -/
theorem highlighter_regexSession (d : Definition) (texts texts' : List (List String)) :
    (regexSession d texts).highlighter = (regexSession d texts').highlighter :=
  (highlighter_readTexts _ texts).trans (highlighter_readTexts _ texts').symm

/-- A line that closes two regions, each by the text that opened it, yields the same whether or not
other regions were opened in between. -/
theorem yieldsSame_quotations : ∃ p ∈ (regexSession quotations [["<a<b"]]).states,
    (regexSession quotations [["<a<b"]]).tokens? "b>a>" (some p) =
      some [⟨⟨0, 2⟩, ["text", "quoted", "inside", "quoted"]⟩, ⟨⟨2, 4⟩, ["text", "quoted"]⟩] ∧
    ∀ budget, (regexSession quotations [["<a<b"]]).YieldsSame
      (regexSession quotations [["<a<b"], ["<c", "x<d"]]) "b>a>" (some p) budget := by
  obtain ⟨hrules, hs⟩ := ofGrammar_regexSession (d := quotations) (by decide +kernel) [["<a<b"]]
  obtain ⟨-, ht⟩ := ofGrammar_regexSession (d := quotations) (by decide +kernel)
    [["<a<b"], ["<c", "x<d"]]
  have htokens : ∃ p ∈ (regexSession quotations [["<a<b"]]).states,
      (regexSession quotations [["<a<b"]]).tokens? "b>a>" (some p) =
        some [⟨⟨0, 2⟩, ["text", "quoted", "inside", "quoted"]⟩,
          ⟨⟨2, 4⟩, ["text", "quoted"]⟩] := by
    decide +kernel
  obtain ⟨p, hp, htokens⟩ := htokens
  have hprevious : ∀ q ∈ some p, ∃ o, Reached (.make (compiled quotations) .standard (.regex Unit) 1
      none) o ∧ q ∈ o.states :=
    fun q hq => ⟨_, hs, Option.some.inj hq ▸ hp⟩
  have hsame := congrArg (·.reader.attribution.theme)
    (highlighter_regexSession quotations [["<a<b"]] [["<a<b"], ["<c", "x<d"]])
  exact ⟨p, hp, htokens, fun budget => hs.yieldsSame hrules (by decide +kernel)
    Engine.oblivious_regex ht hsame "b>a>" hprevious budget⟩

/-- A grammar in which a group of the match that opens a region is read on by a region. -/
def early : Definition where
  scopeName := "text"
  patterns := [{
    name := some "string"
    opening := some "<(\\w)(.*?)>"
    openingCaptures := some [
      (2, { opening := some "q", closing := some "\\|", patterns := some [] })]
    closing := some "(!)\\1" }]

/-- **A line may yield something else when it is read again**, from no state both times and with an
oblivious engine, if a closing text is not known in time. -/
theorem not_yieldsSame_early :
    OfGrammar early (regexSession early []) ∧
    OfGrammar early (regexSession early [["<b|!!xx>"]]) ∧
    (regexSession early []).highlighter = (regexSession early [["<b|!!xx>"]]).highlighter ∧
    (Engine.regex Unit).Oblivious ∧
    (regexSession early []).tokens? "<b|!!xx>" none =
      some [⟨⟨0, 2⟩, ["text", "string"]⟩, ⟨⟨2, 3⟩, ["text", "string"]⟩,
        ⟨⟨3, 5⟩, ["text", "string"]⟩, ⟨⟨5, 7⟩, ["text"]⟩, ⟨⟨7, 8⟩, ["text", "string"]⟩] ∧
    (regexSession early [["<b|!!xx>"]]).tokens? "<b|!!xx>" none =
      some [⟨⟨0, 2⟩, ["text", "string"]⟩, ⟨⟨2, 3⟩, ["text", "string"]⟩,
        ⟨⟨3, 7⟩, ["text", "string"]⟩, ⟨⟨7, 8⟩, ["text", "string"]⟩] := by
  refine ⟨ofGrammar_regexSession (by decide +kernel) _,
    ofGrammar_regexSession (by decide +kernel) _,
    highlighter_regexSession _ _ _, Engine.oblivious_regex, ?_, ?_⟩
  · decide +kernel
  · decide +kernel

end Session

end Highlight
