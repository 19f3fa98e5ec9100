import Highlight.Proofs.Boundaries
import Highlight.Proofs.Levels
import Highlight.Proofs.Places

/-!
# Nothing is cut amiss

The positions that an engine reports are used over and over: to cut the line, to cut what is cut
off it where the text of a group is read on, at any depth, to cut out the texts of groups that
scope names and closing patterns refer to, and to go on from there. If the groups that an engine
finds lie in the text that it is given, between characters, then so does every position wherever
reading comes to: what is read there is what the line begins with, cut at a boundary, and no
round fails because a text cannot be cut.

The other places where something could be out of range do not depend on the engine. A closing
pattern that refers to groups is given its text in the list of what is looked for inside its region,
at the beginning or at the end, and the list holds it there. Names and patterns are put together by
cuts that succeed. The end that a line is read with is one byte, and the line is what comes before.
-/

namespace Highlight

open Grammar

variable {σ : Type}

/-! ## Engines -/

/-- **A stretch lies in a text**: it does not end before it begins or after the text, and it begins
and ends between characters. -/
structure Span.LiesIn (s : Span) (text : String) : Prop where
  /-- It does not end before it begins. -/
  start_le_stop : s.start ≤ s.stop
  /-- It does not end after the text. -/
  stop_le : s.stop ≤ text.utf8ByteSize
  /-- It begins between characters. -/
  start : Text.IsBoundary text s.start
  /-- It ends between characters. -/
  stop : Text.IsBoundary text s.stop

/-- **An engine keeps to characters**: all groups of what it finds lie in the text. -/
def Engine.KeepsToCharacters (e : Engine σ) : Prop :=
  ∀ text start f, e.Finds text start f → ∀ s, some s ∈ f.captures → s.LiesIn text

/-- **The engine of plain texts keeps to characters.** -/
theorem Engine.keepsToCharacters_literal : (Engine.literal σ).KeepsToCharacters := by
  intro text start f h s hs
  obtain ⟨front, found, rest, htext, -, hcaptures⟩ := exists_captures_of_finds_literal h
  rw [hcaptures] at hs
  obtain rfl : s = ⟨_, _⟩ := by simpa using hs
  have hstop : Text.IsBoundary text (Text.sizeOf front + Text.sizeOf found) :=
    Text.isBoundary_iff.2 ⟨front ++ found, ⟨rest, by rw [htext, List.append_assoc]⟩,
      Text.sizeOf_append front found⟩
  exact ⟨Nat.le_add_right _ _, hstop.le, Text.isBoundary_iff.2 ⟨front, ⟨_, htext.symm⟩, rfl⟩, hstop⟩

/-! ## Lists of patterns -/

/-- **The closing pattern of a region is where it is given its text**: in front of all others or, if
it is tried last, at the end, which there is. -/
theorem Grammar.ScannerCache.Sound.closing {e : Engine σ} {table : RuleTable}
    {c : ScannerCache σ} (hc : c.Sound e table) (htable : table.Sound) {id : RuleId}
    {opening closing : Delimiter} {closeLast : Bool} {inside : Inside}
    (hbody : table.body? id = some (.region opening closing closeLast inside))
    (text : Option String) :
    let l := Search.listInside table id text c
    1 ≤ l.patterns.length ∧
      (l.patterns[if closeLast then l.patterns.length - 1 else 0]?).map (·.role) = some .close := by
  have hroles := (hc.listInside id text).patterns
  have hlength := congrArg List.length hroles
  have hclose : closing.pattern.role = .close := (htable.suits hbody).2
  dsimp only
  rw [← List.getElem?_map, hroles]
  rw [List.length_map] at hlength
  rw [hlength, RuleTable.rolesOf, RuleTable.patternsOf, hbody]
  cases closeLast <;> simp [hclose]

namespace LineReader

/-! ## Reading -/

/-- **What reading with an engine keeps** that keeps to characters: what is read is what the line
begins with, it is cut between characters, and reading does not fail because a text cannot be
cut. -/
def Kept.betweenCharacters (r : LineReader σ) (h : r.engine.KeepsToCharacters) (line : String) :
    r.Kept where
  segments := fun _ => True
  scopes := fun _ => True
  text := fun t => Text.before? line t.utf8ByteSize = some t
  position := Text.IsBoundary
  error := fun e => ∀ n, e ≠ .outside n
  push := Attribution.keeps_true _
  produce := fun _ _ _ _ _ _ _ => trivial
  zero := fun t _ => Text.isBoundary_zero t
  whole := fun t _ => Text.isBoundary_utf8ByteSize t
  found := fun t start f _ hf s hs => ⟨(h t start f hf s hs).start, (h t start f hf s hs).stop⟩
  within := fun t start f ht hf s hs inner hinner => by
    have hlies := h t start f hf s hs
    refine ⟨?_, hlies.start.of_before? hinner hlies.start_le_stop⟩
    rw [Text.utf8ByteSize_before? hinner]
    exact Text.before?_trans ht hinner
  outside := fun t start f _ hf s hs hnone => by
    have hstop := (h t start f hf s hs).stop
    rw [Text.IsBoundary, hnone] at hstop
    simp at hstop
  refused := fun _ _ => by simp

/-- **Nothing is amiss at a place** that reading a line comes to. -/
structure NothingAmiss (r : LineReader σ) (line text : String) (c : Cursor) (t : Reading σ) :
    Prop where
  /-- The text is what the line begins with, cut between characters. -/
  begins : Text.before? line text.utf8ByteSize = some text
  /-- What is ahead of the cursor can be cut out. -/
  ahead : (Text.slice? text c.position text.utf8ByteSize).isSome = true
  /-- The text of every group of the next match can be cut out, and can be read on. -/
  groups : ∀ m t', (r.nextMatch text c).run t = .ok (some m) t' → ∀ s, some s ∈ m.captures →
    (Text.slice? text s.start s.stop).isSome = true ∧ (Text.before? text s.stop).isSome = true
  /-- The closing pattern of every region is in its list where it is given its text. -/
  closing : ∀ id opening closing closeLast inside,
    r.rules.table.body? id = some (.region opening closing closeLast inside) → ∀ known,
      let l := Search.listInside r.rules.table id known t.searching.cache
      1 ≤ l.patterns.length ∧
        (l.patterns[if closeLast then l.patterns.length - 1 else 0]?).map (·.role) = some .close
  /-- A round does not fail because a text cannot be cut, however many levels the texts of groups
  in it may take. -/
  round : ∀ depth e t', (r.round (r.readOn depth) text c).run t = .error e t' →
    ∀ n, e ≠ .outside n

/-- **Nothing is amiss wherever reading a line comes to**, with an engine that keeps to
characters. -/
theorem nothingAmiss_of_comesTo {r : LineReader σ} (htable : r.rules.table.Sound)
    (hengine : r.engine.KeepsToCharacters) {line : String} {start : LineState} {first : Bool}
    {searching : Searching σ} (hstart : start.Sound r.rules.root (fun _ => True))
    (hcache : searching.cache.Sound r.engine r.rules.table) {depth : Nat} {text : String}
    {c : Cursor} {t : Reading σ} (h : r.ComesTo line start first searching depth text c t) :
    r.NothingAmiss line text c t := by
  let K := Kept.betweenCharacters r hengine line
  have henough : K.Enough := .inl (fun _ => by simp)
  have hdepth : K.error .depth := fun _ => by simp
  have hline : K.text line := Text.before?_self line
  obtain ⟨hc, ht⟩ := h.stands henough hdepth hline hstart ⟨hcache, trivial⟩
  have hposition : Text.IsBoundary text c.position := hc.position
  refine ⟨hc.text, ?_, fun m t' hnext s hs => ?_, fun _ _ _ _ _ hbody known => ?_,
    fun levels e t' hround => ?_⟩
  · exact hposition.isSome_slice? (Text.isBoundary_utf8ByteSize text) hposition.le
  · -- whoever offers the match, the engine found it
    obtain ⟨-, hoffer⟩ := (K.nextMatch_ensures text c).ok ht hnext
    have hlies : s.LiesIn text := by
      obtain ⟨f, hf, -, hcaptures⟩ | ⟨i, -, f, hf, -, hcaptures⟩ := hoffer m rfl
      · exact hengine text c.position f hf s (hcaptures ▸ hs)
      · exact hengine text c.position f hf s (hcaptures ▸ hs)
    exact ⟨hlies.start.isSome_slice? hlies.stop hlies.start_le_stop, hlies.stop⟩
  · exact ht.cache.closing htable hbody known
  · exact ((Kept.round_follows (Kept.readOn_answers henough hdepth levels) hc).ensures.error ht
      hround).1

end LineReader

/-! ## Lines of a session -/

namespace Session

/-- **Nothing is amiss when a line of a session is read.** -/
structure NothingAmiss (s : Session σ) (line : String) (previous : Option LineState)
    (budget : Option Nat) : Prop where
  /-- That there are no tokens is not because a text cannot be cut. -/
  tokens : ∀ e searching, (s.highlighter.tokenize line previous budget).run s.searching =
    .error e searching → ∀ n, e ≠ .outside n
  /-- That there are no runs is not because a text cannot be cut. -/
  runs : ∀ e searching, (s.highlighter.tokenizeRuns line previous budget).run s.searching =
    .error e searching → ∀ n, e ≠ .outside n
  /-- Reading does not fail because a text cannot be cut, however many levels the texts of groups
  may take. -/
  levels : ∀ depth e t, s.highlighter.readingWith (s.highlighter.reader.readOn depth) line previous
    budget s.searching = .error e t → ∀ n, e ≠ .outside n
  /-- Nothing is amiss wherever reading comes to, in the texts of groups as well. -/
  places : ∀ {depth text c t}, s.highlighter.reader.ComesTo (line ++ "\n")
    (previous.elim s.highlighter.initialState (·.reset)) previous.isNone s.searching depth text c
      t → s.highlighter.reader.NothingAmiss (line ++ "\n") text c t
  /-- Scope names are put together by cuts that succeed. -/
  names : ∀ name text captures,
    ScopeTemplate.assemble? name text captures = some (ScopeTemplate.substitute name text captures)
  /-- Closing and continuing patterns are put together by cuts that succeed. -/
  endings : ∀ (p : Pattern) text captures,
    p.assemble? text captures = some (p.resolve text captures)
  /-- The line is what it is read as, cut one byte before the end, and there is such a byte. -/
  lineEnd : 1 ≤ (line ++ "\n").utf8ByteSize ∧
    Text.before? (line ++ "\n") ((line ++ "\n").utf8ByteSize - 1) = some line

/-- **Nothing is ever amiss** when a line is read, whatever line of a session it is and whatever the
limits of the session, with an engine that keeps to characters. -/
theorem Reached.nothingAmiss {catalog : Catalog} {d : Definition} {rules : Ruleset}
    (hrules : Ruleset.ofDefinition catalog d = .ok rules) {engine : Engine σ}
    (hengine : engine.KeepsToCharacters) {theme : Theme} {language : Nat}
    {configuration : Option Configuration} {s : Session σ}
    (hs : Reached (.make rules theme engine language configuration) s) (line : String)
    {previous : Option LineState} (hprevious : ∀ p ∈ previous, p ∈ s.states)
    (budget : Option Nat) : s.NothingAmiss line previous budget := by
  have hsound := Ruleset.sound_of_ofDefinition hrules
  have hs := hs.sound_of_ofDefinition hrules
  have hengine' : s.highlighter.reader.engine.KeepsToCharacters := hs.engine ▸ hengine
  have htable : s.highlighter.reader.rules.table.Sound := hs.rules ▸ hsound.table
  have hstate := hs.state_of_previous hsound (fun _ => trivial) hprevious
  let K := LineReader.Kept.betweenCharacters s.highlighter.reader hengine' (line ++ "\n")
  have henough : K.Enough := .inl (fun _ => by simp)
  have hdepth : K.error .depth := fun _ => by simp
  have hline : K.text (line ++ "\n") := Text.before?_self _
  have hread := (hs.read_ensures hsound (fun _ => trivial) (K := K) (fun _ _ => trivial) henough
    hdepth trivial hline hprevious budget).mono (fun _ h => h) (fun _ _ _ => trivial)
    (fun _ _ h => h.1)
  have hbefore : K.Sound ⟨s.searching, {}⟩ := ⟨by rw [hs.rules, hs.engine]; exact hs.cache, trivial⟩
  refine ⟨fun e searching hrun => ?_, fun e searching hrun => ?_, fun depth e t hrun => ?_,
    fun hplace => ?_, ScopeTemplate.assemble?_eq, Pattern.assemble?_eq, ?_,
    Text.before?_append_lineEnd line⟩
  · exact (Ensures.bind hread (fun _ => Ensures.pure (Q := fun _ _ => True) (fun _ h => h))).error
      hs.cache hrun
  · exact (Ensures.bind hread (fun _ => Ensures.pure (Q := fun _ _ => True) (fun _ h => h))).error
      hs.cache hrun
  · exact ((LineReader.Kept.readLineWith_follows henough
      (LineReader.Kept.readOn_answers henough hdepth depth) hline hstate previous.isNone
      budget).ensures.error hbefore hrun).1
  · exact LineReader.nothingAmiss_of_comesTo htable hengine' hstate hbefore.cache hplace
  · rw [Text.utf8ByteSize_append_lineEnd]
    exact Nat.le_add_left 1 _

/-- A grammar in which two characters, of three bytes, open a region that is named after them and
that the same two close. Their text is read on. -/
def accents : Definition where
  scopeName := "text"
  patterns := [{
    name := some "quoted.$0"
    opening := some "é<"
    closing := some "\\0"
    closeLast := true
    captures := some [(0, { patterns := some [{ pattern := some "é", name := some "letter" }] })]
    patterns := some [{ pattern := some "a", name := some "word" }] }]

/-- The highlighter of that grammar, for plain texts. -/
def accentHighlighter : Highlighter Unit :=
  .make (Ruleset.orEmpty (Ruleset.ofDefinition {} accents)) .standard (.literal Unit) 1 none

/-- Nothing is amiss on a line that begins inside such a region and closes it. -/
theorem nothingAmiss_accents : ∃ s p,
    Reached accentHighlighter s ∧ p ∈ s.states ∧ p.top.closing = some "é<" ∧
      (s.tokens? "üaé<" (some p)).map (·.map (·.span)) = some [⟨0, 2⟩, ⟨2, 3⟩, ⟨3, 5⟩, ⟨5, 6⟩] ∧
      (Engine.literal Unit).KeepsToCharacters ∧ s.NothingAmiss "üaé<" (some p) none := by
  have hrules : Ruleset.ofDefinition {} accents =
      .ok (Ruleset.orEmpty (Ruleset.ofDefinition {} accents)) :=
    Ruleset.eq_ok_orEmpty (by decide +kernel)
  let s := (start accentHighlighter ()).readTexts [["xé<a"]]
  have hs : Reached accentHighlighter s := (Reached.begins ()).readTexts _
  have hread : ∃ p ∈ s.states, p.top.closing = some "é<" ∧
      (s.tokens? "üaé<" (some p)).map (·.map (·.span)) =
        some [⟨0, 2⟩, ⟨2, 3⟩, ⟨3, 5⟩, ⟨5, 6⟩] := by
    decide +kernel
  obtain ⟨p, hp, hclosing, htokens⟩ := hread
  have hprevious : ∀ q ∈ some p, q ∈ s.states := fun q hq => Option.some.inj hq ▸ hp
  exact ⟨s, p, hs, hp, hclosing, htokens, Engine.keepsToCharacters_literal,
    hs.nothingAmiss hrules Engine.keepsToCharacters_literal "üaé<" hprevious none⟩

end Session

end Highlight
