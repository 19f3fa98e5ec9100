import Highlight.Proofs.History
import Highlight.Proofs.Literal

/-!
# Tokens cover the line

Whatever a grammar does with a line, every byte of the line is in one token, the tokens are in
order, and the first scope of each is the name of the grammar: the frame of the grammar as a whole
is never closed, and all scopes stand on its scope. This takes nothing but an engine that finds
matches within the text.
-/

namespace Highlight

open Grammar

variable {σ : Type}

/-- **Tokens cover a line** of a size, in a grammar of a name: they tile the line, or a single one
stands for a line that is empty, and the first scope of each is the name. -/
structure Covers (tokens : List Token) (size : Nat) (name : String) : Prop where
  /-- The tokens of a line that is not empty tile it. -/
  tile : size ≠ 0 → Span.Tile 0 (tokens.map (·.span)) size
  /-- The empty line has one token. -/
  empty : size = 0 → tokens.map (·.span) = [⟨0, 0⟩]
  /-- The first scope of each is the name. -/
  scopes : ∀ t ∈ tokens, t.scopes.head? = some name

/-- A path that begins with a name. -/
def AttributedPath.BeginsWith (name : String) (p : AttributedPath) : Prop :=
  p.names.head? = some name

namespace AttributedPath.BeginsWith

variable {name : String}

/-- What a path begins with, every path begins with that extends it. -/
theorem of_extends {p q : AttributedPath} (h : q.Extends p) (hp : p.BeginsWith name) :
    q.BeginsWith name := by
  obtain ⟨more, hmore⟩ := h.names
  rw [BeginsWith, ← hmore, List.head?_append, hp]
  rfl

theorem keeps (a : Attribution) : a.Keeps (AttributedPath.BeginsWith name) :=
  fun p scope hp =>
    have hcons : (a.pushScope p scope).Extends p := List.suffix_cons _ _
    of_extends hcons hp

theorem root (a : Attribution) : (a.root name).BeginsWith name := rfl

end AttributedPath.BeginsWith

namespace Session

/-- **The tokens of a line cover it**, whatever line of a session it is, and whatever the limits
within which it is read. -/
theorem Reached.covers_of_tokenize {catalog : Catalog} {d : Definition} {rules : Ruleset}
    (hrules : Ruleset.ofDefinition catalog d = .ok rules) {engine : Engine σ}
    (hengine : engine.Bounded) {theme : Theme} {language : Nat}
    {configuration : Option Configuration} {s : Session σ}
    (hs : Reached (.make rules theme engine language configuration) s) {line : String}
    {previous : Option LineState} (hprevious : ∀ p ∈ previous, p ∈ s.states)
    {t : Tokenized Token} {searching : Searching σ}
    (ht : (s.highlighter.tokenize line previous none).run s.searching = .ok t searching) :
    Covers t.tokens line.utf8ByteSize d.scopeName ∧ t.stoppedEarly = false := by
  have hsound := Ruleset.sound_of_ofDefinition hrules
  have hs := hs.sound hsound AttributedPath.BeginsWith.keeps AttributedPath.BeginsWith.root
  have hkeeps : s.highlighter.reader.attribution.Keeps (AttributedPath.BeginsWith d.scopeName) :=
    .keeps _
  have hline := Text.utf8ByteSize_append_lineEnd line
  let K := LineReader.Kept.bounded s.highlighter.reader hkeeps (hs.engine ▸ hengine.keepsToText)
    (line.utf8ByteSize + 1) (fun _ => True) (fun _ => trivial) (fun _ => trivial)
  have hread := hs.read_ensures hsound AttributedPath.BeginsWith.root (K := K) (fun _ hp => hp)
    (.inl trivial) trivial Segments.Sound.empty (Nat.le_of_eq hline) hprevious none
  have htokenize : Ensures (fun t => t.cache.Sound engine rules.table)
      (s.highlighter.tokenize line previous none)
      (fun t _ => Covers t.tokens line.utf8ByteSize d.scopeName ∧ t.stoppedEarly = false)
      (fun _ _ => True) := by
    refine Ensures.bind (hread.mono (fun _ h => h) (fun _ _ h => h) (fun _ _ _ => trivial))
      (fun p => Ensures.pure (fun t ht => ?_))
    obtain ⟨segments, state, stopped⟩ := p
    -- without a budget the line is cut up to its end, the added line end included
    have hstopped : stopped = false := ht.unstopped rfl
    have hsegments : segments.Sound (AttributedPath.BeginsWith d.scopeName)
        (line.utf8ByteSize + 1) := ht.sound.segments
    have hreached : segments.reached = line.utf8ByteSize + 1 := by
      refine Nat.le_antisymm hsegments.reached ?_
      rw [← hline]
      exact ht.reached hstopped
    refine ⟨⟨fun hsize => ?_, fun hsize => ?_, fun u hu => ?_⟩, hstopped⟩
    · exact Segments.tile_tokens hsegments hreached hsize _
    · dsimp only
      rw [hsize] at hsegments hreached ⊢
      rw [Segments.tokens_empty hsegments hreached]
      rfl
    · obtain ⟨p, hp, hnames⟩ := Segments.scopes_of_mem_tokens hsegments
        (LineReader.Kept.State.content ht.state) u hu
      rw [hnames]
      exact hp
  exact htokenize.ok hs.cache ht

/-- A grammar in which angle brackets enclose a region that runs over several lines. -/
def brackets : Definition where
  scopeName := "text"
  patterns := [{
    name := some "quoted"
    opening := some "<"
    closing := some ">"
    patterns := some [{ pattern := some "a", name := some "letter" }] }]

/-- The highlighter of that grammar, for plain texts. -/
def bracketHighlighter : Highlighter Unit :=
  .make (Ruleset.orEmpty (Ruleset.ofDefinition {} brackets)) .standard (.literal Unit) 1 none

/-- A line that begins inside a region that the line before it opened. -/
theorem covers_of_tokenize_brackets : ∃ s p t searching,
    Reached bracketHighlighter s ∧ p ∈ s.states ∧
      (s.highlighter.tokenize "a>b" (some p) none).run s.searching = .ok t searching ∧
      Covers t.tokens 3 "text" ∧ t.stoppedEarly = false := by
  have hrules : Ruleset.ofDefinition {} brackets =
      .ok (Ruleset.orEmpty (Ruleset.ofDefinition {} brackets)) :=
    Ruleset.eq_ok_orEmpty (by decide +kernel)
  have hs : Reached bracketHighlighter ((start bracketHighlighter ()).readTexts [["x<"]]) :=
    (Reached.begins ()).readTexts _
  have hread : ∃ p ∈ ((start bracketHighlighter ()).readTexts [["x<"]]).states,
      ∃ tokens ∈ ((start bracketHighlighter ()).readTexts [["x<"]]).tokens? "a>b" (some p),
        tokens ≠ [] := by
    decide +kernel
  obtain ⟨p, hp, tokens, htokens, -⟩ := hread
  obtain ⟨t, searching, ht, -⟩ := exists_run_of_tokens? htokens
  have hprevious : ∀ q ∈ some p, q ∈ ((start bracketHighlighter ()).readTexts [["x<"]]).states :=
    fun q hq => Option.some.inj hq ▸ hp
  exact ⟨_, p, t, searching, hs, hp, ht,
    hs.covers_of_tokenize hrules Engine.bounded_literal hprevious ht⟩

end Session

end Highlight
