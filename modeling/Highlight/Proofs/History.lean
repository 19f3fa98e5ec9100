import Highlight.Highlighter
import Highlight.Proofs.Compiling
import Highlight.Proofs.Rounds

/-!
# The states that lines end in

A highlighter is used for one line after another, in any order: a line is read from no state, or
from one that some line ended in before. In between its theme may be changed, and whoever else
uses the engine may leave it in another state. A **session** is what comes of this, with all states
that lines ended in. What is shown of states is shown of all of a session, by following it step by
step.

The limits of reading may be changed at any time, too. Whatever a line does that is read to its end
at all, it does within some limits, and so what is shown of all sessions leaves out no such line.
-/

namespace Highlight

open Grammar

variable {σ : Type}

namespace Highlighter

/-- Reading a line from an earlier state. -/
theorem run_read (h : Highlighter σ) (line : String) (previous : Option LineState)
    (budget : Option Nat) (s : Searching σ) :
    (h.read line previous budget).run s =
      match (h.reader.readLine (line ++ "\n") (previous.elim h.initialState (·.reset))
        previous.isNone budget).run ⟨s, {}⟩ with
      | .ok p r => .ok (r.segments, p) r.searching
      | .error e r => .error e r.searching := by
  dsimp only [read, EStateM.run]
  split
  · next hrun => rw [hrun]
  · next hrun => rw [hrun]

/-- **What reading a line from an earlier state keeps.** -/
theorem read_ensures {h : Highlighter σ} {K : h.reader.Kept} (henough : K.Enough)
    (hdepth : K.error .depth) (hempty : K.segments {}) {line : String}
    (hline : K.text (line ++ "\n")) {previous : Option LineState}
    (hstate : K.State (previous.elim h.initialState (·.reset))) (budget : Option Nat) :
    Ensures (fun s => s.cache.Sound h.reader.engine h.reader.rules.table)
      (h.read line previous budget)
      (fun p s => K.Ended (line ++ "\n") budget p.2 ⟨s, p.1⟩)
      (fun e s => K.error e ∧ s.cache.Sound h.reader.engine h.reader.rules.table) := by
  intro s hs
  have hread := LineReader.Kept.readLine_ensures henough hdepth hline hstate previous.isNone budget
    ⟨s, {}⟩ ⟨hs, hempty⟩
  rw [run_read]
  split
  · next hx =>
    split at hx
    · next hrun =>
      obtain ⟨rfl, rfl⟩ := EStateM.Result.ok.inj hx
      rw [hrun] at hread
      exact hread
    · simp at hx
  · next hx =>
    split at hx
    · simp at hx
    · next hrun =>
      obtain ⟨rfl, rfl⟩ := EStateM.Result.error.inj hx
      rw [hrun] at hread
      exact ⟨hread.1, hread.2.cache⟩

/-- The state that every document begins in, if the grammar is a sound one of this name. -/
theorem initialState_eq {h : Highlighter σ} {name : String} (hrules : h.reader.rules.Sound name) :
    h.initialState = .initial h.reader.rules.root (h.reader.attribution.root name) := by
  obtain ⟨inside, hroot⟩ := hrules.root
  unfold initialState
  dsimp only
  rw [hroot]
  rfl

end Highlighter

/-- **A session**: a highlighter, the cache and the state of the engine, and the states that lines
ended in so far. -/
structure Session (σ : Type) where
  /-- The highlighter. -/
  highlighter : Highlighter σ
  /-- The cache and the state of the engine. -/
  searching : Searching σ
  /-- The states that lines ended in. -/
  states : List LineState

namespace Session

/-- **The sessions of a highlighter**, and all that may happen in them. -/
inductive Reached (h : Highlighter σ) : Session σ → Prop
  /-- Nothing has been read. -/
  | begins (engine : σ) : Reached h ⟨h, ⟨{}, engine⟩, []⟩
  /-- A line is read, from no state or one that a line ended in. -/
  | reads {s : Session σ} (line : String) {previous : Option LineState} (budget : Option Nat)
      {segments : Segments} {state : LineState} {stopped : Bool} {searching : Searching σ}
      (before : Reached h s) (known : ∀ p ∈ previous, p ∈ s.states)
      (run : (s.highlighter.read line previous budget).run s.searching =
        .ok (segments, state, stopped) searching) :
      Reached h ⟨s.highlighter, searching, state :: s.states⟩
  /-- A line cannot be read. -/
  | fails {s : Session σ} (line : String) {previous : Option LineState} (budget : Option Nat)
      {e : LineError} {searching : Searching σ}
      (before : Reached h s) (known : ∀ p ∈ previous, p ∈ s.states)
      (run : (s.highlighter.read line previous budget).run s.searching = .error e searching) :
      Reached h ⟨s.highlighter, searching, s.states⟩
  /-- The theme is changed. -/
  | retheme {s : Session σ} (theme : Theme) (before : Reached h s) :
      Reached h ⟨s.highlighter.withTheme theme, s.searching, s.states⟩
  /-- From now on, reading goes on for longer, or not for as long. -/
  | relimits {s : Session σ} (limits : Limits) (before : Reached h s) :
      Reached h ⟨s.highlighter.withLimits limits, s.searching, s.states⟩
  /-- Someone else uses the engine. -/
  | shares {s : Session σ} (engine : σ) (before : Reached h s) :
      Reached h ⟨s.highlighter, { s.searching with engine := engine }, s.states⟩

/-- Nothing but the theme and the limits of a highlighter is changed. -/
theorem Reached.highlighter_eq {h : Highlighter σ} {s : Session σ} (hs : Reached h s) :
    s.highlighter = (h.withTheme s.highlighter.reader.attribution.theme).withLimits
      s.highlighter.reader.limits := by
  induction hs with
  | begins engine => rfl
  | reads line budget before known run ih => exact ih
  | fails line budget before known run ih => exact ih
  | retheme theme before ih => exact congrArg (·.withTheme theme) ih
  | relimits limits before ih => exact congrArg (·.withLimits limits) ih
  | shares engine before ih => exact ih

/-- The session of a highlighter in which nothing has been read. -/
def start (h : Highlighter σ) (engine : σ) : Session σ := ⟨h, ⟨{}, engine⟩, []⟩

/-- The session after some more lines have been read, one after another from a state on. A line
that cannot be read is passed over. -/
def readLines (s : Session σ) (previous : Option LineState) : List String → Session σ
  | [] => s
  | line :: rest =>
    match (s.highlighter.read line previous none).run s.searching with
    | .ok (_, state, _) searching =>
      readLines ⟨s.highlighter, searching, state :: s.states⟩ (some state) rest
    | .error _ searching => readLines ⟨s.highlighter, searching, s.states⟩ previous rest

/-- The session after the lines of some documents have been read. -/
def readTexts (s : Session σ) (texts : List (List String)) : Session σ :=
  texts.foldl (fun s lines => s.readLines none lines) s

section

variable (holds : Session σ → Prop)
  (reads : ∀ {s : Session σ} (line : String) {previous : Option LineState} (budget : Option Nat)
    {segments : Segments} {state : LineState} {stopped : Bool} {searching : Searching σ},
    holds s → (∀ p ∈ previous, p ∈ s.states) →
      (s.highlighter.read line previous budget).run s.searching =
        .ok (segments, state, stopped) searching →
      holds ⟨s.highlighter, searching, state :: s.states⟩)
  (fails : ∀ {s : Session σ} (line : String) {previous : Option LineState} (budget : Option Nat)
    {e : LineError} {searching : Searching σ}, holds s → (∀ p ∈ previous, p ∈ s.states) →
      (s.highlighter.read line previous budget).run s.searching = .error e searching →
      holds ⟨s.highlighter, searching, s.states⟩)

include reads fails

/-- What is kept by reading a line, and by failing to, is kept by reading one after another. -/
theorem readLines_keeps {s : Session σ} (hs : holds s) {previous : Option LineState}
    (hprevious : ∀ p ∈ previous, p ∈ s.states) (lines : List String) :
    holds (s.readLines previous lines) := by
  induction lines generalizing s previous with
  | nil => exact hs
  | cons line rest ih =>
    unfold Session.readLines
    split
    · next state _ searching hrun =>
      have hstate : ∀ p ∈ some state, p ∈ state :: s.states :=
        fun p hp => Option.some.inj hp ▸ List.mem_cons_self
      exact ih (reads line none hs hprevious hrun) hstate
    · next hrun => exact ih (fails line none hs hprevious hrun) hprevious

theorem readTexts_keeps {s : Session σ} (hs : holds s) (texts : List (List String)) :
    holds (s.readTexts texts) := by
  unfold Session.readTexts
  induction texts generalizing s with
  | nil => exact hs
  | cons lines rest ih =>
    exact ih (readLines_keeps holds reads fails hs (fun p hp => by simp at hp) lines)

end

theorem Reached.readTexts {h : Highlighter σ} {s : Session σ} (hs : Reached h s)
    (texts : List (List String)) : Reached h (s.readTexts texts) :=
  readTexts_keeps (Reached h) .reads .fails hs texts

/-- Reading texts does not change the highlighter. -/
theorem highlighter_readTexts (s : Session σ) (texts : List (List String)) :
    (s.readTexts texts).highlighter = s.highlighter := by
  refine readTexts_keeps (fun t => t.highlighter = s.highlighter) ?_ ?_ rfl texts
  · intro _ _ _ _ _ _ _ _ h _ _
    exact h
  · intro _ _ _ _ _ _ h _ _
    exact h

/-- The tokens of a line, if it can be read. -/
def tokens? (s : Session σ) (line : String) (previous : Option LineState) : Option (List Token) :=
  match (s.highlighter.tokenize line previous none).run s.searching with
  | .ok t _ => some t.tokens
  | .error .. => none

/-- A line with tokens can be read. -/
theorem exists_run_of_tokens? {s : Session σ} {line : String} {previous : Option LineState}
    {tokens : List Token} (h : s.tokens? line previous = some tokens) :
    ∃ t searching, (s.highlighter.tokenize line previous none).run s.searching = .ok t searching ∧
      t.tokens = tokens := by
  unfold tokens? at h
  split at h
  · next t searching hrun => exact ⟨t, searching, hrun, Option.some.inj h⟩
  · simp at h

/-- **A session is sound**: whatever its theme, it has the compiled grammar and the engine that it
began with, a sound cache, and sound states with good scopes. -/
structure Sound (h : Highlighter σ) (good : AttributedPath → Prop) (s : Session σ) : Prop where
  /-- The compiled grammar. -/
  rules : s.highlighter.reader.rules = h.reader.rules
  /-- The engine. -/
  engine : s.highlighter.reader.engine = h.reader.engine
  /-- The cache. -/
  cache : s.searching.cache.Sound h.reader.engine h.reader.rules.table
  /-- The states. -/
  states : ∀ p ∈ s.states, p.Sound h.reader.rules.root good

/-- The state that a line of a sound session is read from is sound. -/
theorem Sound.state_of_previous {h : Highlighter σ} {name : String}
    (hrules : h.reader.rules.Sound name) {good : AttributedPath → Prop}
    (hroot : ∀ a : Attribution, good (a.root name)) {s : Session σ} (hs : s.Sound h good)
    {previous : Option LineState} (hprevious : ∀ p ∈ previous, p ∈ s.states) :
    (previous.elim s.highlighter.initialState (·.reset)).Sound s.highlighter.reader.rules.root
      good := by
  cases previous with
  | none =>
    rw [Option.elim_none, Highlighter.initialState_eq (hs.rules ▸ hrules)]
    exact LineState.Sound.initial (hroot _)
  | some p =>
    rw [hs.rules]
    exact (hs.states p (hprevious p rfl)).reset

/-- **What reading a line of a sound session keeps.** -/
theorem Sound.read_ensures {h : Highlighter σ} {name : String}
    (hrules : h.reader.rules.Sound name) {good : AttributedPath → Prop}
    (hroot : ∀ a : Attribution, good (a.root name)) {s : Session σ} (hs : s.Sound h good)
    {K : s.highlighter.reader.Kept} (hgood : ∀ p, good p → K.scopes p) (henough : K.Enough)
    (hdepth : K.error .depth) (hempty : K.segments {}) {line : String}
    (hline : K.text (line ++ "\n")) {previous : Option LineState}
    (hprevious : ∀ p ∈ previous, p ∈ s.states) (budget : Option Nat) :
    Ensures (fun t => t.cache.Sound h.reader.engine h.reader.rules.table)
      (s.highlighter.read line previous budget)
      (fun p t => K.Ended (line ++ "\n") budget p.2 ⟨t, p.1⟩)
      (fun e t => K.error e ∧ t.cache.Sound h.reader.engine h.reader.rules.table) := by
  have hstate : K.State (previous.elim s.highlighter.initialState (·.reset)) :=
    (hs.state_of_previous hrules hroot hprevious).mono hgood
  have hread := Highlighter.read_ensures henough hdepth hempty hline hstate budget
  rwa [hs.rules, hs.engine] at hread

/-- **All sessions of a highlighter are sound**, for what is kept by pushing scopes and holds of
paths of the grammar's name alone. -/
theorem Reached.sound {h : Highlighter σ} {name : String} (hrules : h.reader.rules.Sound name)
    {good : AttributedPath → Prop} (hkeeps : ∀ a : Attribution, a.Keeps good)
    (hroot : ∀ a : Attribution, good (a.root name)) {s : Session σ} (hs : Reached h s) :
    s.Sound h good := by
  -- whatever the theme, a line read from a sound state ends in one
  have hread : ∀ {s : Session σ}, s.Sound h good → ∀ (line : String)
      {previous : Option LineState} (budget : Option Nat), (∀ p ∈ previous, p ∈ s.states) →
      Ensures (fun t => t.cache.Sound h.reader.engine h.reader.rules.table)
        (s.highlighter.read line previous budget)
        (fun p t => t.cache.Sound h.reader.engine h.reader.rules.table ∧
          p.2.1.Sound h.reader.rules.root good)
        (fun _ t => t.cache.Sound h.reader.engine h.reader.rules.table) := by
    intro s hs line previous budget hknown
    let K := LineReader.Kept.ofScopes s.highlighter.reader
      (hkeeps s.highlighter.reader.attribution) (fun _ => True) (fun _ => trivial)
      (fun _ => trivial)
    refine (hs.read_ensures hrules hroot (K := K) (fun _ hp => hp) (.inl trivial) trivial trivial
      trivial hknown budget).mono (fun _ ht => ht) (fun p t ht => ?_) (fun _ t ht => ht.2)
    have hcache : t.cache.Sound s.highlighter.reader.engine s.highlighter.reader.rules.table :=
      ht.sound.cache
    have hstate : p.2.1.Sound s.highlighter.reader.rules.root good := ht.state
    rw [hs.rules] at hstate
    rw [hs.rules, hs.engine] at hcache
    exact ⟨hcache, hstate⟩
  induction hs with
  | begins engine => exact ⟨rfl, rfl, .empty, fun p hp => by simp at hp⟩
  | reads line budget _ hknown hrun ih =>
    obtain ⟨hcache, hstate⟩ := (hread ih line budget hknown).ok ih.cache hrun
    exact ⟨ih.rules, ih.engine, hcache, List.forall_mem_cons.2 ⟨hstate, ih.states⟩⟩
  | fails line budget _ hknown hrun ih =>
    exact ⟨ih.rules, ih.engine, (hread ih line budget hknown).error ih.cache hrun, ih.states⟩
  | retheme theme _ ih => exact ⟨ih.rules, ih.engine, ih.cache, ih.states⟩
  | relimits limits _ ih => exact ⟨ih.rules, ih.engine, ih.cache, ih.states⟩
  | shares engine _ ih =>
    exact ⟨ih.rules, ih.engine, ⟨ih.cache.inside, ih.cache.continuing⟩, ih.states⟩

/-- The sessions of a grammar that was compiled are sound. -/
theorem Reached.sound_of_ofDefinition {catalog : Catalog} {d : Definition} {rules : Ruleset}
    (hrules : Ruleset.ofDefinition catalog d = .ok rules) {engine : Engine σ} {theme : Theme}
    {language : Nat} {configuration : Option Configuration} {s : Session σ}
    (hs : Reached (.make rules theme engine language configuration) s) :
    s.Sound (.make rules theme engine language configuration) (fun _ => True) :=
  hs.sound (Ruleset.sound_of_ofDefinition hrules) Attribution.keeps_true (fun _ => trivial)

end Session

end Highlight
