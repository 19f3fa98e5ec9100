import Highlight.Proofs.History

/-!
# Limits that a line does not run into

A line that is read within some limits is read in the same way within all greater ones: the limits
are never looked at but to give up. So what a line yields, if it yields anything, does not depend on
the limits, and all that they decide is whether it does.

Which levels are left is carried into the texts of groups, so a step with smaller limits is not the
same as one with greater limits, not even if it succeeds. It **follows** it, though, until it gives
up, and that is kept by sequences of steps, by rounds, and by reading on one level deeper.
-/

namespace Highlight

open Grammar Selector

variable {σ : Type}

namespace Limits

/-- Limits that allow for no more than others do. -/
structure AtMost (a b : Limits) : Prop where
  /-- No more levels. -/
  levels : a.levels ≤ b.levels
  /-- No more matches outside of the text. -/
  strays : a.strays ≤ b.strays

/-- The limits that allow for what either of two allow for. -/
def sup (a b : Limits) : Limits := ⟨max a.levels b.levels, max a.strays b.strays⟩

theorem atMost_sup_left (a b : Limits) : a.AtMost (a.sup b) :=
  ⟨Nat.le_max_left _ _, Nat.le_max_left _ _⟩

theorem atMost_sup_right (a b : Limits) : b.AtMost (a.sup b) :=
  ⟨Nat.le_max_right _ _, Nat.le_max_right _ _⟩

end Limits

/-- **An error for want of more**: reading gives up because of its limits. -/
def LineError.GivesUp (e : LineError) : Prop := e = .depth ∨ e = .unending

namespace LineReader

/-! ## Steps that do not look at the limits -/

section

variable (r : LineReader σ) (limits : Limits)

theorem matchInjections_withLimits (text : String) (c : Cursor) (scopes : List String)
    (injections : List Injection) (best : Option (Priority × RuleMatch)) :
    (r.withLimits limits).matchInjections text c scopes injections best =
      r.matchInjections text c scopes injections best := by
  induction injections generalizing best with
  | nil => rfl
  | cons i rest ih =>
    simp only [matchInjections, ih]
    rfl

theorem nextMatch_withLimits (text : String) (c : Cursor) :
    (r.withLimits limits).nextMatch text c = r.nextMatch text c := by
  simp only [nextMatch, matchInjections_withLimits]
  rfl

theorem readGroups_withLimits (readOn : ReadOn σ) (text : String) (c : Cursor)
    (captures : Captures) (left : List (RuleId × Span)) (groups : List OpenGroup) :
    (r.withLimits limits).readGroups readOn text c captures left groups =
      r.readGroups readOn text c captures left groups := by
  induction left generalizing groups with
  | nil => rfl
  | cons g rest ih =>
    simp only [readGroups, ih]
    rfl

theorem readCaptures_withLimits (readOn : ReadOn σ) (text : String) (c : Cursor)
    (rules : CaptureRules) (captures : Captures) :
    (r.withLimits limits).readCaptures readOn text c rules captures =
      r.readCaptures readOn text c rules captures := by
  simp only [readCaptures, readGroups_withLimits]

theorem round_withLimits (readOn : ReadOn σ) (text : String) (c : Cursor) :
    (r.withLimits limits).round readOn text c = r.round readOn text c := by
  simp only [round, enterRule, openRegion, closeRegion, nextMatch_withLimits,
    readCaptures_withLimits]
  rfl

theorem rounds_withLimits (readOn : ReadOn σ) (text : String) (limit : Nat)
    (budget : Option Nat) (c : Cursor) :
    (r.withLimits limits).rounds readOn text limit budget c =
      r.rounds readOn text limit budget c := by
  induction limit generalizing budget c with
  | zero => rfl
  | succ limit ih => simp only [rounds, ih, round_withLimits]

theorem continueBlocks_withLimits (readOn : ReadOn σ) (text : String)
    (blocks : List (LineState × Delimiter)) (c : Cursor) :
    (r.withLimits limits).continueBlocks readOn text blocks c =
      r.continueBlocks readOn text blocks c := by
  induction blocks generalizing c with
  | nil => rfl
  | cons b rest ih =>
    simp only [continueBlocks, ih, readCaptures_withLimits]
    rfl

theorem beginLine_withLimits (readOn : ReadOn σ) (text : String) (s : LineState) (first : Bool) :
    (r.withLimits limits).beginLine readOn text s first = r.beginLine readOn text s first :=
  r.continueBlocks_withLimits limits readOn text _ _

end

/-! ## Steps that count -/

variable {r : LineReader σ} {limits limits' : Limits}

theorem roundLimit_le (h : limits.AtMost limits') (text : String) (s : LineState) :
    (r.withLimits limits).roundLimit text s ≤ (r.withLimits limits').roundLimit text s :=
  Nat.add_le_add_left h.strays _

/-- **Rounds are the same when more of them are allowed**, until fewer have run out. -/
theorem rounds_follows_of_le (readOn : ReadOn σ) (text : String) {limit limit' : Nat}
    (h : limit ≤ limit') (budget : Option Nat) (c : Cursor) :
    Follows LineError.GivesUp (fun _ => True) (r.rounds readOn text limit budget c)
      (r.rounds readOn text limit' budget c) (fun _ _ => True) (fun _ _ => True) := by
  induction limit generalizing limit' budget c with
  | zero => exact Follows.throw (.inr rfl)
  | succ limit ih =>
    obtain ⟨more, rfl⟩ := Nat.exists_eq_add_of_le' h
    rw [← Nat.add_assoc, rounds, rounds]
    split
    · exact Follows.pure (fun _ _ => trivial)
    · refine Follows.bind Ensures.trivial.follows (fun R => ?_)
      cases R with
      | done s => exact Follows.pure (fun _ _ => trivial)
      | next c' => exact ih (Nat.le_add_left _ _) _ c'

namespace Kept

variable {K : r.Kept} {text : String}

/-- What reads on the texts of groups with greater limits answers alike. -/
theorem readOn_answers_withLimits (hunending : K.error .unending) (h : r.limits.AtMost limits)
    {depth depth' : Nat} (hdepth : depth ≤ depth') :
    K.Answers LineError.GivesUp (r.readOn depth) ((r.withLimits limits).readOn depth') := by
  induction depth generalizing depth' with
  | zero => exact fun _ _ _ _ => Follows.throw (.inl rfl)
  | succ depth ih =>
    obtain ⟨more, rfl⟩ := Nat.exists_eq_add_of_le' hdepth
    intro text c hc hid
    -- one level deeper the induction hypothesis applies, and then there may be more rounds
    have hdeeper : K.Answers LineError.GivesUp (r.readGroup (r.readOn depth))
        (r.readGroup ((r.withLimits limits).readOn (more + depth))) :=
      readGroup_answers (.inl hunending) (ih (Nat.le_add_left _ _))
    refine (hdeeper text c hc hid).trans ?_
    rw [← Nat.add_assoc, readOn]
    unfold readGroup
    rw [rounds_withLimits]
    exact Follows.bind ((rounds_follows_of_le _ text (roundLimit_le h text c.state) none c).mono
      (fun _ _ => trivial) (fun _ _ h => h) (fun _ _ h => h))
      (fun _ => Follows.pure (fun _ _ => trivial))

/-- **Reading a line is the same with greater limits**, until it gives up. -/
theorem readLine_follows_withLimits (hunending : K.error .unending)
    (h : r.limits.AtMost limits) (htext : K.text text) {s : LineState} (hs : K.State s)
    (first : Bool) (budget : Option Nat) :
    Follows LineError.GivesUp K.Sound (r.readLine text s first budget)
      ((r.withLimits limits).readLine text s first budget) (K.Ended text budget) K.Fails := by
  have hanswers := readOn_answers_withLimits (K := K) hunending h h.levels
  refine (readLineWith_follows (.inl hunending) hanswers htext hs first budget).trans ?_
  unfold readLine readLineWith
  rw [beginLine_withLimits]
  refine Follows.bind Ensures.trivial.follows (fun c => ?_)
  rw [rounds_withLimits]
  exact rounds_follows_of_le _ text (roundLimit_le h text c.state) budget c

end Kept

end LineReader

namespace Session

/-- **Limits suffice for a line**: with them, reading it does not give up. -/
def Suffices (s : Session σ) (limits : Limits) (line : String) (previous : Option LineState)
    (budget : Option Nat) : Prop :=
  ∀ e t, ((s.highlighter.withLimits limits).read line previous budget).run s.searching =
    .error e t → ¬ e.GivesUp

/-- The state that a line is read from is sound, in whichever session a line ended in it. -/
theorem Reached.state_of_previous {h : Highlighter σ} {name : String}
    (hrules : h.reader.rules.Sound name) {s : Session σ} (hs : Reached h s)
    {previous : Option LineState} (hprevious : ∀ p ∈ previous, ∃ o, Reached h o ∧ p ∈ o.states) :
    (previous.elim s.highlighter.initialState (·.reset)).Sound h.reader.rules.root
      (fun _ => True) := by
  cases previous with
  | none =>
    have hs := hs.sound hrules Attribution.keeps_true (fun _ => trivial)
    rw [Option.elim_none, Highlighter.initialState_eq (hs.rules ▸ hrules), hs.rules]
    exact .initial trivial
  | some p =>
    obtain ⟨o, ho, hp⟩ := hprevious p rfl
    exact ((ho.sound hrules Attribution.keeps_true (fun _ => trivial)).states p hp).reset

/-- **All limits that suffice for a line are as good**: what is read, the state at its end and the
cache and engine afterwards, or the error, are the same with greater limits. -/
theorem Reached.read_withLimits_eq {h : Highlighter σ} {name : String}
    (hrules : h.reader.rules.Sound name) {s : Session σ} (hs : Reached h s)
    {limits limits' : Limits} (hle : limits.AtMost limits') {line : String}
    {previous : Option LineState}
    (hprevious : ∀ p ∈ previous, ∃ o, Reached h o ∧ p ∈ o.states) {budget : Option Nat}
    (hsuffices : s.Suffices limits line previous budget) :
    ((s.highlighter.withLimits limits').read line previous budget).run s.searching =
      ((s.highlighter.withLimits limits).read line previous budget).run s.searching := by
  have hprevious := (hs.relimits limits).state_of_previous hrules hprevious
  have hs := (hs.relimits limits).sound hrules Attribution.keeps_true (fun _ => trivial)
  let K := LineReader.Kept.ofScopes (s.highlighter.withLimits limits).reader
    (Attribution.keeps_true _) (fun _ => True) (fun _ => trivial) (fun _ => trivial)
  have hstate : K.State (previous.elim (s.highlighter.withLimits limits).initialState
      (·.reset)) := by
    rwa [← hs.rules] at hprevious
  have ht : K.Sound ⟨s.searching, {}⟩ := ⟨by rw [hs.rules, hs.engine]; exact hs.cache, trivial⟩
  have htext : K.text (line ++ "\n") := trivial
  have hfollows := LineReader.Kept.readLine_follows_withLimits (K := K) trivial hle htext hstate
    previous.isNone budget
  have hline := hfollows.run_eq ht fun e t hrun =>
    hsuffices e t.searching (by rw [Highlighter.run_read, hrun])
  rw [Highlighter.run_read, Highlighter.run_read, ← hline]
  rfl

/-- **A line that is read is read in the same way with greater limits.** -/
theorem Reached.read_withLimits_of_ok {h : Highlighter σ} {name : String}
    (hrules : h.reader.rules.Sound name) {s : Session σ} (hs : Reached h s)
    {limits limits' : Limits} (hle : limits.AtMost limits') {line : String}
    {previous : Option LineState}
    (hprevious : ∀ p ∈ previous, ∃ o, Reached h o ∧ p ∈ o.states) {budget : Option Nat}
    {x : Segments × LineState × Bool} {searching : Searching σ}
    (hrun : ((s.highlighter.withLimits limits).read line previous budget).run s.searching =
      .ok x searching) :
    ((s.highlighter.withLimits limits').read line previous budget).run s.searching =
      .ok x searching := by
  rw [← hrun]
  exact hs.read_withLimits_eq hrules hle hprevious (fun e t he => by simp [hrun] at he)

end Session

end Highlight
