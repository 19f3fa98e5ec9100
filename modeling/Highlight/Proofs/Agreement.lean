import Highlight.Proofs.FixedScopes
import Highlight.Scanner.Literal
import Highlight.Scanner.Regex

/-!
# States that agree

Whether two states agree is told by their rules, their closing patterns and the scopes on top. A
frame has more than that: the scopes of its delimiters, the scopes between them, and whether the
match that opened it took in the end of the line, so that `\G` holds where the next line begins.
All of it is read on a further line, so states that agree need not be interchangeable.

Little is missing, though. The frames of a state stand on each other, so all their scopes lie on
the path of the scopes on top, and to know those of a frame it is enough to know how many there
are. Most rules fix how many: a rule without a name for what is between its delimiters, whose own
name refers to no group of a match, always adds as many. So states that agree are the same, but for
the positions that are forgotten anyway, if their matches took in the ends of lines alike and the
frames of all other rules have as many scopes.
-/

namespace Highlight

open Grammar

variable {σ : Type}

namespace LineState

variable {p q : LineState}

/-- The matches that opened the frames of two states took in the ends of lines alike. -/
def SameLineEnds (p q : LineState) : Prop :=
  p.frames.map (·.tookLineEnd) = q.frames.map (·.tookLineEnd)

instance (p q : LineState) : Decidable (p.SameLineEnds q) := inferInstanceAs (Decidable (_ = _))

/-- The rule of a frame and its closing pattern. -/
def region (f : Frame) : RuleId × Option String := (f.rule, f.closing)

theorem agrees_iff : p.agrees q = true ↔
    p.frames.map region = q.frames.map region ∧ p.top.contentScopes = q.top.contentScopes := by
  unfold agrees
  rw [Bool.and_eq_true, beq_iff_eq, beq_iff_eq]
  rfl

/-- A state is told by its frames. -/
theorem eq_of_frames (h : p.frames = q.frames) : p = q := by
  obtain ⟨top, below⟩ := p
  obtain ⟨top', below'⟩ := q
  obtain ⟨rfl, rfl⟩ : top = top' ∧ below = below' := List.cons.inj h
  rfl

/-- The scopes of a frame lie on a path. -/
def LiesOn (scopes : AttributedPath) (f : Frame) : Prop :=
  scopes.Extends f.nameScopes ∧ scopes.Extends f.contentScopes

/-- The scopes of all frames lie on the path of the scopes on top. -/
theorem Sound.liesOn {root : RuleId} {good : AttributedPath → Prop} (h : p.Sound root good) :
    ∀ f ∈ p.frames, LiesOn p.top.contentScopes f := by
  intro f hf
  obtain rfl | hbelow := List.mem_cons.1 hf
  · exact ⟨h.inside p.top hf, .refl _⟩
  · have htop : p.top.nameScopes.Extends f.contentScopes :=
      (List.pairwise_cons.1 h.standing).1 f hbelow
    have hcontent : p.top.contentScopes.Extends f.contentScopes :=
      (h.inside p.top (Sound.top_mem p)).trans htop
    exact ⟨hcontent.trans (h.inside f hf), hcontent⟩

/-- Frames whose scopes lie on one path are told by their regions, by what took in the ends of
lines, and by how many scopes there are. -/
theorem map_forget_eq {scopes : AttributedPath} {fs gs : List Frame}
    (hfs : ∀ f ∈ fs, LiesOn scopes f) (hgs : ∀ g ∈ gs, LiesOn scopes g)
    (hregions : fs.map region = gs.map region)
    (hends : fs.map (·.tookLineEnd) = gs.map (·.tookLineEnd))
    (hcounts : fs.map scopeCounts = gs.map scopeCounts) : fs.map forget = gs.map forget := by
  induction fs generalizing gs with
  | nil =>
    rw [List.map_eq_nil_iff.1 hregions.symm]
  | cons f fs ih =>
    cases gs with
    | nil => simp at hregions
    | cons g gs =>
      obtain ⟨hf, hfs⟩ := List.forall_mem_cons.1 hfs
      obtain ⟨hg, hgs⟩ := List.forall_mem_cons.1 hgs
      obtain ⟨hregion, hregions⟩ := List.cons.inj hregions
      obtain ⟨hend, hends⟩ := List.cons.inj hends
      obtain ⟨hcount, hcounts⟩ := List.cons.inj hcounts
      rw [List.map_cons, List.map_cons, ih hfs hgs hregions hends hcounts]
      -- on one path, as many scopes are the same scopes
      have hname : f.nameScopes = g.nameScopes := hf.1.eq_of_length hg.1 (Prod.mk.inj hcount).1
      have hcontent : f.contentScopes = g.contentScopes :=
        hf.2.eq_of_length hg.2 (Prod.mk.inj hcount).2
      obtain ⟨rule, entered, anchor, tookLineEnd, closing, nameScopes, contentScopes⟩ := f
      obtain ⟨rule', entered', anchor', tookLineEnd', closing', nameScopes', contentScopes'⟩ := g
      obtain ⟨rfl, rfl⟩ : rule = rule' ∧ closing = closing' := Prod.mk.inj hregion
      obtain rfl : tookLineEnd = tookLineEnd' := hend
      obtain rfl : nameScopes = nameScopes' := hname
      obtain rfl : contentScopes = contentScopes' := hcontent
      rfl

/-- **What agreement leaves out**: sound states are the same but for their positions exactly if
they agree, took in the ends of lines alike, and have as many scopes. -/
theorem Sound.reset_eq_iff {root root' : RuleId} {good good' : AttributedPath → Prop}
    (hp : p.Sound root good) (hq : q.Sound root' good') :
    p.reset = q.reset ↔ p.agrees q = true ∧ p.SameLineEnds q ∧
      p.frames.map scopeCounts = q.frames.map scopeCounts := by
  constructor
  · intro h
    have hframes : p.frames.map forget = q.frames.map forget := by
      rw [← frames_reset, ← frames_reset, h]
    -- nothing that is compared is forgotten
    have hmap : ∀ {β : Type} (view : Frame → β), (∀ f, view (forget f) = view f) →
        p.frames.map view = q.frames.map view := by
      intro β view hview
      have hviews := congrArg (List.map view) hframes
      rw [List.map_map, List.map_map] at hviews
      rwa [show view ∘ forget = view from funext hview] at hviews
    have htop : p.reset.top.contentScopes = q.reset.top.contentScopes := by rw [h]
    exact ⟨agrees_iff.2 ⟨hmap region (fun _ => rfl), htop⟩, hmap _ (fun _ => rfl),
      hmap scopeCounts (fun _ => rfl)⟩
  · rintro ⟨hagrees, hends, hcounts⟩
    obtain ⟨hregions, htop⟩ := agrees_iff.1 hagrees
    have hqtop : ∀ g ∈ q.frames, LiesOn p.top.contentScopes g := htop ▸ hq.liesOn
    refine eq_of_frames ?_
    rw [frames_reset, frames_reset]
    exact map_forget_eq hp.liesOn hqtop hregions hends hcounts

/-- How many scopes a frame has, if its rule does not fix it. -/
def varyingCounts (rules : Ruleset) (f : Frame) : Option (Nat × Nat) :=
  if rules.fixesScopes f.rule then none else some (scopeCounts f)

/-- The frames of two states have as many scopes, where the rules do not fix how many. -/
def SameVaryingCounts (rules : Ruleset) (p q : LineState) : Prop :=
  p.frames.map (varyingCounts rules) = q.frames.map (varyingCounts rules)

instance (rules : Ruleset) (p q : LineState) : Decidable (p.SameVaryingCounts rules q) :=
  inferInstanceAs (Decidable (_ = _))

/-- The frames of two states whose scopes are fixed have as many scopes, if they are of the same
rules and have as many where these do not fix how many. -/
theorem map_scopeCounts_eq {rules : Ruleset} {f g : Frame} {fs gs : List Frame}
    (hf : FixedFrom rules f fs) (hg : FixedFrom rules g gs)
    (hregions : (f :: fs).map region = (g :: gs).map region)
    (hvarying : (f :: fs).map (varyingCounts rules) = (g :: gs).map (varyingCounts rules)) :
    (f :: fs).map scopeCounts = (g :: gs).map scopeCounts := by
  induction fs generalizing f g gs with
  | nil =>
    obtain rfl : gs = [] := List.map_eq_nil_iff.1 (List.cons.inj hregions).2.symm
    rw [List.map_singleton, List.map_singleton, show scopeCounts f = (1, 1) from hf,
      show scopeCounts g = (1, 1) from hg]
  | cons f' fs ih =>
    cases gs with
    | nil => simp at hregions
    | cons g' gs =>
      obtain ⟨hregion, hregions⟩ := List.cons.inj hregions
      obtain ⟨hhere, hvarying⟩ := List.cons.inj hvarying
      have hbelow := ih hf.2 hg.2 hregions hvarying
      have hpath : f'.contentScopes.scopes.length = g'.contentScopes.scopes.length :=
        (Prod.mk.inj (List.cons.inj hbelow).1).2
      have hrule : f.rule = g.rule := (Prod.mk.inj hregion).1
      have hcounts : scopeCounts f = scopeCounts g := by
        unfold varyingCounts at hhere
        rw [← hrule] at hhere
        split at hhere
        -- the rule fixes the scopes on top of those below, and there are as many below
        · next hfixes =>
          obtain ⟨rule, hget, hfixes⟩ := (Option.any_eq_true _ _).1 hfixes
          rw [hf.1 rule hget hfixes, hg.1 rule (hrule ▸ hget) hfixes, hpath]
        · exact Option.some.inj hhere
      rw [List.map_cons, hcounts, hbelow]
      rfl

end LineState

namespace Highlighter

/-- **Two states are interchangeable**: whatever line is read next, and whatever lines follow it,
within any limits they yield the same from one as from the other – tokens, runs and states, or a
failure. -/
structure Interchangeable (h : Highlighter σ) (p q : LineState) : Prop where
  /-- The tokens of the next line, and the state at its end. -/
  tokens : ∀ limits line budget, (h.withLimits limits).tokenize line (some p) budget =
    (h.withLimits limits).tokenize line (some q) budget
  /-- The runs of the next line, and the state at its end. -/
  runs : ∀ limits line budget, (h.withLimits limits).tokenizeRuns line (some p) budget =
    (h.withLimits limits).tokenizeRuns line (some q) budget
  /-- All lines that follow. -/
  lines : ∀ limits lines, (h.withLimits limits).tokenizeLines lines (some p) =
    (h.withLimits limits).tokenizeLines lines (some q)

/-- States that are the same but for their positions are interchangeable. -/
theorem interchangeable_of_reset_eq {h : Highlighter σ} {p q : LineState}
    (hreset : p.reset = q.reset) : h.Interchangeable p q := by
  have hread : ∀ limits line budget, (h.withLimits limits).read line (some p) budget =
      (h.withLimits limits).read line (some q) budget := by
    intro limits line budget
    unfold read
    rw [Option.elim_some, Option.elim_some, hreset]
    rfl
  have htokens : ∀ limits line budget, (h.withLimits limits).tokenize line (some p) budget =
      (h.withLimits limits).tokenize line (some q) budget := by
    intro limits line budget
    unfold tokenize
    rw [hread]
  refine ⟨htokens, fun limits line budget => ?_, fun limits lines => ?_⟩
  · unfold tokenizeRuns
    rw [hread]
  · cases lines with
    | nil => rfl
    | cons line rest => rw [tokenizeLines, tokenizeLines, htokens]

end Highlighter

namespace Session

/-- **States that agree are interchangeable** if they took in the ends of lines alike, and if the
frames of rules that do not fix their scopes have as many scopes. -/
theorem Reached.interchangeable_of_agrees {catalog : Catalog} {d : Definition} {rules : Ruleset}
    (hrules : Ruleset.ofDefinition catalog d = .ok rules) {engine : Engine σ} {theme : Theme}
    {language : Nat} {configuration : Option Configuration} {s : Session σ}
    (hs : Reached (.make rules theme engine language configuration) s) {p q : LineState}
    (hp : p ∈ s.states) (hq : q ∈ s.states) (hagrees : p.agrees q = true)
    (hends : p.SameLineEnds q) (hcounts : p.SameVaryingCounts rules q) :
    s.highlighter.Interchangeable p q := by
  have hsound := hs.sound_of_ofDefinition hrules
  have hturns : ∀ r : LineReader σ, r.rules = rules → r.KeptByTurns (·.Fixed rules) :=
    fun r hr => hr ▸ LineState.keptByTurns_fixed r
  have hfixed : ∀ p ∈ s.states, p.Fixed rules :=
    hs.forall_states (Ruleset.sound_of_ofDefinition hrules)
      (fun a => LineState.Fixed.initial rules _ a _) (fun _ h => h.reset)
      (fun r hr _ => hturns r hr)
  have hall : p.frames.map LineState.scopeCounts = q.frames.map LineState.scopeCounts :=
    LineState.map_scopeCounts_eq (hfixed p hp) (hfixed q hq) (LineState.agrees_iff.1 hagrees).1
      hcounts
  refine Highlighter.interchangeable_of_reset_eq ?_
  exact ((hsound.states p hp).reset_eq_iff (hsound.states q hq)).2 ⟨hagrees, hends, hall⟩

/-- A grammar in which angle brackets enclose regions, with letters around them. -/
def angles : Definition where
  scopeName := "text"
  patterns := [
    { name := some "quoted", opening := some "<", closing := some ">" },
    { name := some "letter", pattern := some "a" }]

/-- The session of that grammar, for plain texts, in which two lines were read that open a region
at different places. -/
def angleSession : Session Unit :=
  (start (.make (Ruleset.orEmpty (Ruleset.ofDefinition {} angles)) .standard (.literal Unit) 1
    none) ()).readTexts [["<"], ["a<"]]

/-- The states after the two lines differ, and are interchangeable. -/
theorem interchangeable_of_agrees_angles : ∃ p q, p ∈ angleSession.states ∧
    q ∈ angleSession.states ∧ p ≠ q ∧ p.agrees q = true ∧
    angleSession.highlighter.Interchangeable p q := by
  have hrules : Ruleset.ofDefinition {} angles =
      .ok (Ruleset.orEmpty (Ruleset.ofDefinition {} angles)) :=
    Ruleset.eq_ok_orEmpty (by decide +kernel)
  have hstates : ∃ p ∈ angleSession.states, ∃ q ∈ angleSession.states, p ≠ q ∧
      p.agrees q = true ∧ p.SameLineEnds q ∧
        p.SameVaryingCounts (Ruleset.orEmpty (Ruleset.ofDefinition {} angles)) q := by
    decide +kernel
  obtain ⟨p, hp, q, hq, hne, hagrees, hends, hcounts⟩ := hstates
  have hs : Reached (.make (Ruleset.orEmpty (Ruleset.ofDefinition {} angles)) .standard
      (.literal Unit) 1 none) angleSession := (Reached.begins ()).readTexts _
  exact ⟨p, q, hp, hq, hne, hagrees,
    hs.interchangeable_of_agrees hrules hp hq hagrees hends hcounts⟩

/-- The compiled form of a grammar. -/
def compiled (d : Definition) : Ruleset := Ruleset.orEmpty (Ruleset.ofDefinition {} d)

/-- The session of a grammar, for regular expressions, in which some documents have been read. -/
def regexSession (d : Definition) (texts : List (List String)) : Session Unit :=
  (start (.make (compiled d) .standard (.regex Unit) 1 none) ()).readTexts texts

/-- A session of a grammar that was compiled. -/
def OfGrammar (d : Definition) (s : Session Unit) : Prop :=
  Ruleset.ofDefinition {} d = .ok (compiled d) ∧
    Reached (.make (compiled d) .standard (.regex Unit) 1 none) s

theorem ofGrammar_regexSession {d : Definition} (h : (Ruleset.ofDefinition {} d).isOk = true)
    (texts : List (List String)) : OfGrammar d (regexSession d texts) :=
  ⟨Ruleset.eq_ok_orEmpty h, (Reached.begins ()).readTexts texts⟩

/-- A grammar in which a region may begin with the end of a line, and has something in it that may
only stand where it begins. -/
def beginnings : Definition where
  scopeName := "text"
  patterns := [{
    name := some "region"
    opening := some "a\\n?"
    closing := some "z"
    patterns := some [{ pattern := some "\\Gb", name := some "first" }] }]

/-- Its session with a line that ends where the region begins, and a line where a blank follows. -/
def beginningSession : Session Unit := regexSession beginnings [["a"], ["a "]]

/-- A grammar in which the scopes of a region are named by the match that opens it. -/
def titles : Definition where
  scopeName := "text"
  patterns := [{
    name := some "$1"
    opening := some "<(.*)>"
    closing := some "z"
    patterns := some [{ reference := some "$self" }] }]

/-- Its session with two regions inside each other, of two scopes and one, and of one and two. -/
def titleSession : Session Unit := regexSession titles [["<a b>", "<c>"], ["<a>", "<b c>"]]

/-- A grammar in which there are scopes between the delimiters of regions, and regions that may be
closed where they are opened. -/
def insides : Definition where
  scopeName := "text"
  patterns := [{
    contentName := some "inside"
    opening := some "(?=x)|b"
    closing := some "(?=x)|z"
    patterns := some [{
      contentName := some "inside"
      opening := some "(?=y)|d"
      closing := some "(?=y)|z" }] }]

/-- Its session with two regions inside each other, of which the one or the other is closed where it
was opened. -/
def insideSession : Session Unit := regexSession insides [["x", "d"], ["b", "y"]]

/-- **States that agree need not be interchangeable**, and none of the conditions can be spared:
not that they took in the ends of lines alike, and not that they have as many scopes, neither where
names refer to groups nor where there are scopes between the delimiters. -/
theorem agrees_not_enough :
    (OfGrammar beginnings beginningSession ∧
      ∃ p ∈ beginningSession.states, ∃ q ∈ beginningSession.states,
        p.agrees q = true ∧ p.SameVaryingCounts (compiled beginnings) q ∧
        beginningSession.tokens? "b" (some p) = some [⟨⟨0, 1⟩, ["text", "region", "first"]⟩] ∧
        beginningSession.tokens? "b" (some q) = some [⟨⟨0, 1⟩, ["text", "region"]⟩]) ∧
    (OfGrammar titles titleSession ∧
      ∃ p ∈ titleSession.states, ∃ q ∈ titleSession.states, p.agrees q = true ∧
        p.SameLineEnds q ∧
        titleSession.tokens? "zy" (some p) =
          some [⟨⟨0, 1⟩, ["text", "a", "b", "c"]⟩, ⟨⟨1, 2⟩, ["text", "a", "b"]⟩] ∧
        titleSession.tokens? "zy" (some q) =
          some [⟨⟨0, 1⟩, ["text", "a", "b", "c"]⟩, ⟨⟨1, 2⟩, ["text", "a"]⟩]) ∧
    (OfGrammar insides insideSession ∧
      ∃ p ∈ insideSession.states, ∃ q ∈ insideSession.states, p.agrees q = true ∧
        p.SameLineEnds q ∧
        insideSession.tokens? "z" (some p) = some [⟨⟨0, 1⟩, ["text"]⟩] ∧
        insideSession.tokens? "z" (some q) = some [⟨⟨0, 1⟩, ["text", "inside"]⟩]) := by
  refine ⟨⟨ofGrammar_regexSession (by decide +kernel) _, ?_⟩,
    ⟨ofGrammar_regexSession (by decide +kernel) _, ?_⟩,
    ⟨ofGrammar_regexSession (by decide +kernel) _, ?_⟩⟩
  · decide +kernel
  · decide +kernel
  · decide +kernel

end Session

end Highlight
