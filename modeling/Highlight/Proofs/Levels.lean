import Highlight.Proofs.History
import Highlight.Proofs.Literal

/-!
# How deep the texts of groups are read on

The text of a group is read on by a rule, and while it is, the text of a group of a match in it may
be read on in turn. That text need not be shorter than the one around it: the group may be the
whole match, and the rule that reads it on may hold the rule whose match it is. Then the same text
is read on by the same rule inside itself, and again inside that, and no number of levels is
enough.

This is all that can go wrong. A text is read on from a place to a place of the line, by a rule
that the table names for a group, so there are only so many that can be read on inside each other
without a repetition. To make this precise, texts are read on only as long as they are on a list,
from which each is taken while it is read on. A number of levels is enough for a line exactly if
such a list is that has every text as often as some number says.
-/

namespace Highlight

open Grammar

variable {σ : Type}

/-- **The text of a group that is read on**: by which rule, and from where to where. -/
structure GroupText where
  /-- The rule. -/
  rule : RuleId
  /-- The first position. -/
  start : Nat
  /-- The position after the last byte. -/
  stop : Nat
  deriving DecidableEq, Repr

/-- What is read on at a cursor in a text. -/
def Cursor.groupText (c : Cursor) (text : String) : GroupText :=
  ⟨c.state.top.rule, c.position, text.utf8ByteSize⟩

namespace LineReader

/-- **Reads on only the texts on a list**, each inside itself as often as it is there. -/
def readOnAmong (r : LineReader σ) (left : List GroupText) : ReadOn σ := fun text c =>
  if c.groupText text ∈ left then
    r.readGroup (r.readOnAmong (left.erase (c.groupText text))) text c
  else throw .depth
termination_by left.length
decreasing_by
  have hmem := ‹_ ∈ left›
  rw [List.length_erase_of_mem hmem]
  exact Nat.sub_lt (List.length_pos_of_mem hmem) Nat.one_pos

/-- The rules that the texts of groups are read on by. -/
def groupRules (r : LineReader σ) : List RuleId :=
  r.rules.table.rules.toList.filterMap (fun rule => match rule with
    | some ⟨_, _, .capture within⟩ => within
    | _ => none)

/-- All texts of groups in a line of a size. -/
def groupTexts (r : LineReader σ) (size : Nat) : List GroupText :=
  r.groupRules.flatMap (fun rule => (List.range (size + 1)).flatMap (fun start =>
    (List.range (size + 1)).map (fun stop => ⟨rule, start, stop⟩)))

/-- All texts of groups in a line of a size, each a number of times. -/
def groupTextsTimes (r : LineReader σ) (times size : Nat) : List GroupText :=
  (List.replicate times (r.groupTexts size)).flatten

variable {r : LineReader σ}

theorem mem_groupRules {id : RuleId} (h : r.ForGroup id) : id ∈ r.groupRules := by
  obtain ⟨of, name, contentName, hof⟩ := h
  obtain ⟨n, rfl, -⟩ := RuleTable.exists_place hof
  rw [RuleTable.get?_eq] at hof
  have hmem := List.mem_of_getElem? (Option.join_eq_some_iff.1 hof)
  exact List.mem_filterMap.2 ⟨_, hmem, rfl⟩

theorem mem_groupTexts {k : GroupText} {size : Nat} (hrule : r.ForGroup k.rule)
    (hstart : k.start ≤ size) (hstop : k.stop ≤ size) : k ∈ r.groupTexts size := by
  refine List.mem_flatMap.2 ⟨k.rule, mem_groupRules hrule, List.mem_flatMap.2 ⟨k.start, ?_, ?_⟩⟩
  · exact List.mem_range.2 (Nat.lt_succ_of_le hstart)
  · exact List.mem_map.2 ⟨k.stop, List.mem_range.2 (Nat.lt_succ_of_le hstop), rfl⟩

theorem length_flatMap_of_length {α β : Type} {f : α → List β} {n : Nat}
    (hf : ∀ a, (f a).length = n) (l : List α) : (l.flatMap f).length = l.length * n := by
  induction l with
  | nil => exact (Nat.zero_mul n).symm
  | cons a l ih =>
    rw [List.flatMap_cons, List.length_append, hf, ih, List.length_cons, Nat.succ_mul,
      Nat.add_comm]

/-- There are no more texts of groups than rules, first positions and last positions. -/
theorem length_groupTexts_le (r : LineReader σ) (size : Nat) :
    (r.groupTexts size).length ≤ r.rules.table.size * ((size + 1) * (size + 1)) := by
  have hrules : r.groupRules.length ≤ r.rules.table.size := by
    rw [RuleTable.size, ← Array.length_toList]
    exact List.length_filterMap_le _ _
  have htexts : (r.groupTexts size).length = r.groupRules.length * ((size + 1) * (size + 1)) := by
    have hstops : ∀ rule start, ((List.range (size + 1)).map (fun stop =>
        GroupText.mk rule start stop)).length = size + 1 := by
      intro rule start
      rw [List.length_map, List.length_range]
    refine length_flatMap_of_length (fun rule => ?_) r.groupRules
    rw [length_flatMap_of_length (hstops rule), List.length_range]
  rw [htexts]
  exact Nat.mul_le_mul_right _ hrules

theorem length_groupTextsTimes_le (r : LineReader σ) (times size : Nat) :
    (r.groupTextsTimes times size).length ≤
      times * (r.rules.table.size * ((size + 1) * (size + 1))) := by
  have hlength : (r.groupTextsTimes times size).length = times * (r.groupTexts size).length := by
    simp [groupTextsTimes]
  rw [hlength]
  exact Nat.mul_le_mul_left _ (r.length_groupTexts_le size)

/-- Every text of a group is on the list as often as it says. -/
theorem le_count_groupTextsTimes {k : GroupText} {size : Nat} (h : k ∈ r.groupTexts size)
    (times : Nat) : times ≤ (r.groupTextsTimes times size).count k := by
  induction times with
  | zero => exact Nat.zero_le _
  | succ times ih =>
    have hone : 0 < (r.groupTexts size).count k := List.count_pos_iff.2 h
    unfold groupTextsTimes at ih ⊢
    rw [List.replicate_succ, List.flatten_cons, List.count_append]
    omega

/-! ## Levels and lists -/

namespace Kept

variable {K : r.Kept}

/-- Reading on with a number of levels does what reading on among the texts of a list does, or runs
out of levels, if every text is on the list as often as there are levels. -/
theorem readOn_answers_readOnAmong (henough : K.Enough) {size : Nat}
    (hsize : ∀ {text} n, K.position text n → n ≤ size) {depth : Nat} {left : List GroupText}
    (hleft : ∀ k ∈ r.groupTexts size, depth ≤ left.count k) :
    K.Answers (· = .depth) (r.readOn depth) (r.readOnAmong left) := by
  induction depth generalizing left with
  | zero => exact fun _ _ _ _ => Follows.throw rfl
  | succ depth ih =>
    intro text c hc hid
    have hk : c.groupText text ∈ r.groupTexts size :=
      mem_groupTexts hid (hsize _ hc.position) (hsize _ (K.whole text hc.text))
    have hmem : c.groupText text ∈ left :=
      List.count_pos_iff.1 (Nat.lt_of_lt_of_le (Nat.succ_pos depth) (hleft _ hk))
    rw [readOnAmong, if_pos hmem]
    refine readGroup_answers henough (ih (fun k' hk' => ?_)) text c hc hid
    -- the text that is read on is on the list once less, and all others are as before
    have hcount := hleft k' hk'
    rw [List.count_erase]
    split <;> omega

/-- Reading on among the texts of a list does what reading on with more levels than it is long
does, or comes to a text that is not on the list. -/
theorem readOnAmong_answers_readOn (henough : K.Enough) {depth : Nat} {left : List GroupText}
    (hdepth : left.length < depth) :
    K.Answers (· = .depth) (r.readOnAmong left) (r.readOn depth) := by
  induction depth generalizing left with
  | zero => exact absurd hdepth (Nat.not_lt_zero _)
  | succ depth ih =>
    intro text c hc hid
    rw [readOnAmong]
    by_cases hmem : c.groupText text ∈ left
    · rw [if_pos hmem]
      refine readGroup_answers henough (ih ?_) text c hc hid
      have hpos := List.length_pos_of_mem hmem
      rw [List.length_erase_of_mem hmem]
      omega
    · rw [if_neg hmem]
      exact Follows.throw rfl

end Kept

end LineReader

/-! ## Lines of a session -/

namespace Highlighter

/-- Reading a line, given how the texts of groups are read on. -/
def readingWith (h : Highlighter σ) (readOn : ReadOn σ) (line : String)
    (previous : Option LineState) (budget : Option Nat) (searching : Searching σ) :
    EStateM.Result LineError (Reading σ) (LineState × Bool) :=
  (h.reader.readLineWith readOn (line ++ "\n") (previous.elim h.initialState (·.reset))
    previous.isNone budget).run ⟨searching, {}⟩

/-- **Reading a line runs out** of what texts of groups may be read on inside each other. -/
def RunsOut (h : Highlighter σ) (readOn : ReadOn σ) (line : String)
    (previous : Option LineState) (budget : Option Nat) (searching : Searching σ) : Prop :=
  ∃ t, h.readingWith readOn line previous budget searching = .error .depth t

instance (h : Highlighter σ) (readOn : ReadOn σ) (line : String) (previous : Option LineState)
    (budget : Option Nat) (searching : Searching σ) :
    Decidable (h.RunsOut readOn line previous budget searching) :=
  match hrun : h.readingWith readOn line previous budget searching with
  | .error e t =>
    if he : e = .depth then .isTrue ⟨t, he ▸ hrun⟩
    else .isFalse (fun ⟨_, ht⟩ => he (EStateM.Result.error.inj (hrun.symm.trans ht)).1)
  | .ok _ _ => .isFalse (fun ⟨_, ht⟩ => by rw [hrun] at ht; simp at ht)

end Highlighter

namespace Session

/-- What reads on the texts of groups may be exchanged for another that answers alike, as long as
reading does not run out. -/
theorem Sound.readingWith_eq {h : Highlighter σ} {name : String}
    (hrules : h.reader.rules.Sound name) {s : Session σ} (hs : s.Sound h (fun _ => True))
    {K : s.highlighter.reader.Kept} (hscopes : ∀ p, K.scopes p) (henough : K.Enough)
    (hempty : K.segments {}) {line : String} (hline : K.text (line ++ "\n"))
    {previous : Option LineState} (hprevious : ∀ p ∈ previous, p ∈ s.states) {budget : Option Nat}
    {f g : ReadOn σ} (hanswers : K.Answers (· = .depth) f g)
    (hout : ¬ s.highlighter.RunsOut f line previous budget s.searching) :
    s.highlighter.readingWith g line previous budget s.searching =
      s.highlighter.readingWith f line previous budget s.searching := by
  have hstate : K.State (previous.elim s.highlighter.initialState (·.reset)) :=
    (hs.state_of_previous hrules (fun _ => trivial) hprevious).mono (fun p _ => hscopes p)
  have ht : K.Sound ⟨s.searching, {}⟩ := ⟨by rw [hs.rules, hs.engine]; exact hs.cache, hempty⟩
  refine (LineReader.Kept.readLineWith_follows henough hanswers hline hstate previous.isNone
    budget).run_eq ht (fun e t hrun he => hout ⟨t, ?_⟩)
  rw [← he]
  exact hrun

/-- **A number of levels is enough** for a line. -/
def Enough (s : Session σ) (line : String) (previous : Option LineState) (budget : Option Nat)
    (depth : Nat) : Prop :=
  ¬ s.highlighter.RunsOut (s.highlighter.reader.readOn depth) line previous budget s.searching

/-- **No text of a group is read on inside itself more often** than a number of times while a line
is read: by the same rule, from the same place to the same place. -/
def RepeatsAtMost (s : Session σ) (line : String) (previous : Option LineState)
    (budget : Option Nat) (times : Nat) : Prop :=
  ¬ s.highlighter.RunsOut (s.highlighter.reader.readOnAmong
    (s.highlighter.reader.groupTextsTimes times (line.utf8ByteSize + 1))) line previous budget
    s.searching

instance (s : Session σ) (line : String) (previous : Option LineState) (budget : Option Nat)
    (times : Nat) : Decidable (s.RepeatsAtMost line previous budget times) :=
  inferInstanceAs (Decidable (¬ _))

/-- **Some number of levels is enough for a line exactly if no text of a group is read on inside
itself more than some number of times.** As many levels are enough then as there are rules, first
positions and last positions, each so many times, and one more. -/
theorem Reached.exists_enough_iff {catalog : Catalog} {d : Definition} {rules : Ruleset}
    (hrules : Ruleset.ofDefinition catalog d = .ok rules) {engine : Engine σ}
    (hengine : engine.KeepsToText) {theme : Theme} {language : Nat}
    {configuration : Option Configuration} {s : Session σ}
    (hs : Reached (.make rules theme engine language configuration) s) (line : String)
    {previous : Option LineState} (hprevious : ∀ p ∈ previous, p ∈ s.states)
    (budget : Option Nat) :
    ((∃ depth, s.Enough line previous budget depth) ↔
      ∃ times, s.RepeatsAtMost line previous budget times) ∧
    ∀ times depth, s.RepeatsAtMost line previous budget times →
      times * (rules.table.size * ((line.utf8ByteSize + 2) * (line.utf8ByteSize + 2))) < depth →
        s.Enough line previous budget depth := by
  have hsound := Ruleset.sound_of_ofDefinition hrules
  have hs := hs.sound_of_ofDefinition hrules
  have hline := Text.utf8ByteSize_append_lineEnd line
  let K := LineReader.Kept.bounded s.highlighter.reader (Attribution.keeps_true _)
    (hs.engine ▸ hengine)
    (line.utf8ByteSize + 1) (fun _ => True) (fun _ => trivial) (fun _ => trivial)
  -- if reading does not run out with `f`, it is the same with `g`
  have hout : ∀ {f g : ReadOn σ}, K.Answers (· = .depth) f g →
      ¬ s.highlighter.RunsOut f line previous budget s.searching →
      ¬ s.highlighter.RunsOut g line previous budget s.searching := by
    rintro f g hanswers hf ⟨t, hg⟩
    rw [hs.readingWith_eq hsound (K := K) (fun _ => trivial) (.inl trivial) Segments.Sound.empty
      (Nat.le_of_eq hline) hprevious hanswers hf] at hg
    exact hf ⟨t, hg⟩
  have henough : ∀ times depth, s.RepeatsAtMost line previous budget times →
      times * (rules.table.size * ((line.utf8ByteSize + 2) * (line.utf8ByteSize + 2))) < depth →
        s.Enough line previous budget depth := by
    intro times depth hrepeats hdepth
    have hlength := s.highlighter.reader.length_groupTextsTimes_le times (line.utf8ByteSize + 1)
    rw [hs.rules] at hlength
    exact hout (LineReader.Kept.readOnAmong_answers_readOn (.inl trivial)
      (Nat.lt_of_le_of_lt hlength hdepth)) hrepeats
  refine ⟨⟨fun ⟨depth, hdepth⟩ => ⟨depth, ?_⟩, fun ⟨times, hrepeats⟩ => ⟨_, henough times _ hrepeats
    (Nat.lt_succ_self _)⟩⟩, henough⟩
  refine hout (LineReader.Kept.readOn_answers_readOnAmong (.inl trivial) (fun n hn => hn) ?_) hdepth
  exact fun k hk => LineReader.le_count_groupTextsTimes hk depth

/-- A grammar in which the text of a match is read on by a rule of its own. -/
def words : Definition where
  scopeName := "text"
  patterns := [{
    pattern := some "ab"
    captures := some [(0, { patterns := some [{ pattern := some "a", name := some "letter" }] })] }]

/-- The session of that grammar in which nothing has been read, for plain texts. -/
def wordSession : Session Unit where
  highlighter := .make (Ruleset.orEmpty (Ruleset.ofDefinition {} words)) .standard (.literal Unit) 1
    none
  searching := ⟨{}, ()⟩
  states := []

/-- The text of a match is not read on inside itself, and so some number of levels is enough. -/
theorem exists_enough_words : wordSession.RepeatsAtMost "cab" none none 1 ∧
    ∃ depth, wordSession.Enough "cab" none none depth := by
  have hrules : Ruleset.ofDefinition {} words =
      .ok (Ruleset.orEmpty (Ruleset.ofDefinition {} words)) :=
    Ruleset.eq_ok_orEmpty (by decide +kernel)
  have hrepeats : wordSession.RepeatsAtMost "cab" none none 1 := by decide +kernel
  have hs : Reached wordSession.highlighter wordSession := .begins ()
  have hprevious : ∀ p ∈ (none : Option LineState), p ∈ wordSession.states :=
    fun p hp => by simp at hp
  exact ⟨hrepeats, (hs.exists_enough_iff hrules Engine.bounded_literal.keepsToText "cab" hprevious
    none).1.2 ⟨1, hrepeats⟩⟩

end Session

namespace Circular

/-- A grammar in which the text of a match is read on by the grammar as a whole. -/
def definition : Definition where
  scopeName := "text"
  patterns := [{
    pattern := some "a"
    captures := some [(0, { patterns := some [{ reference := some "$self" }] })] }]

/-- What it is compiled to: the grammar as a whole, its only rule, the rule that reads on the text
of the match, and the rule for that group. -/
def rules : Ruleset where
  scope := "text"
  root := ⟨1⟩
  table := ⟨#[
    some ⟨some (.ofText "text"), none, .choice ⟨[⟨2⟩], false⟩⟩,
    some ⟨none, none, .single ⟨⟨"a", .enter ⟨2⟩, false⟩, ⟨[(0, ⟨4⟩)]⟩⟩⟩,
    some ⟨none, none, .choice ⟨[⟨1⟩], false⟩⟩,
    some ⟨none, none, .capture (some ⟨3⟩)⟩]⟩
  injections := []

theorem ofDefinition_eq : Ruleset.ofDefinition {} definition = .ok rules := by
  rw [Ruleset.eq_ok_orEmpty (x := Ruleset.ofDefinition {} definition) (by decide +kernel)]
  have hscope : (Ruleset.orEmpty (Ruleset.ofDefinition {} definition)).scope = rules.scope := by
    decide +kernel
  have hroot : (Ruleset.orEmpty (Ruleset.ofDefinition {} definition)).root = rules.root := by
    decide +kernel
  have htable : (Ruleset.orEmpty (Ruleset.ofDefinition {} definition)).table.rules =
      rules.table.rules := by
    decide +kernel
  have hinjections :
      (Ruleset.orEmpty (Ruleset.ofDefinition {} definition)).injections.isEmpty = true := by
    decide +kernel
  generalize Ruleset.orEmpty (Ruleset.ofDefinition {} definition) = x at *
  obtain ⟨scope, root, ⟨table⟩, injections⟩ := x
  obtain rfl : injections = [] := List.isEmpty_iff.1 hinjections
  obtain rfl : scope = rules.scope := hscope
  obtain rfl : root = rules.root := hroot
  obtain rfl : table = rules.table.rules := htable
  rfl

/-- Its highlighter, for plain texts. -/
def highlighter : Highlighter Unit := .make rules .standard (.literal Unit) 1 none

/-- Its only rule. -/
def rule : Rule := ⟨none, none, .single ⟨⟨"a", .enter ⟨2⟩, false⟩, ⟨[(0, ⟨4⟩)]⟩⟩⟩

/-- The match of the rule at the beginning of a text. -/
def found : RuleMatch := ⟨.enter ⟨2⟩, [some ⟨0, 1⟩]⟩

/-- The list of its only pattern, once there is a scanner for it. -/
def list : PatternList Unit where
  patterns := [⟨"a", .enter ⟨2⟩, false⟩]
  scanners := [(.neither,
    ⟨⟨1, fun text start => pure (Literal.search ["a".toList] text start)⟩, [.enter ⟨2⟩]⟩)]

/-- What the cache has for some rules, once lines have been read inside of them. -/
def cache (inside : List RuleId) : ScannerCache Unit := ⟨inside.map (·, list), []⟩

/-- A step fails for want of levels. -/
def Dry {α : Type} (x : Read Unit α) (t : Reading Unit) : Prop := ∃ t', x.run t = .error .depth t'

theorem Dry.bind {α β : Type} {x : Read Unit α} {t : Reading Unit} (h : Dry x t)
    (f : α → Read Unit β) : Dry (x >>= f) t := by
  obtain ⟨t', ht'⟩ := h
  exact ⟨t', by rw [EStateM.run_bind, ht']⟩

theorem Dry.after {α β : Type} {x : Read Unit α} {f : α → Read Unit β} {a : α}
    {t t' : Reading Unit} (hx : x.run t = .ok a t') (h : Dry (f a) t') : Dry (x >>= f) t := by
  obtain ⟨t'', ht''⟩ := h
  exact ⟨t'', by rw [EStateM.run_bind, hx]; exact ht''⟩

/-- Rounds that begin with a match whose group is read on inside itself run dry if that does. -/
theorem dry_rounds {readOn : ReadOn Unit} {text : String} {s : LineState} {first : Bool}
    (htext : Text.before? text 1 = some "a") {before after : ScannerCache Unit} {t : Segments}
    (hnext : (highlighter.reader.nextMatch text ⟨s, 0, none, first⟩).run ⟨⟨before, ()⟩, t⟩ =
      .ok (some found) ⟨⟨after, ()⟩, t⟩)
    (hinner : ∀ (s : LineState) (first : Bool) (t : Segments), s.top.rule = ⟨3⟩ →
      s.top.closing = none → Dry (readOn "a" ⟨s, 0, none, first⟩) ⟨⟨after, ()⟩, t⟩)
    (limit : Nat) (budget : Option Nat) (hbudget : budget ≠ some 0) :
    Dry (highlighter.reader.rounds readOn text (limit + 1) budget ⟨s, 0, none, first⟩)
      ⟨⟨before, ()⟩, t⟩ := by
  rw [LineReader.rounds, if_neg hbudget]
  refine Dry.bind (Dry.after hnext ?_) _
  -- the rule is entered, and the text of the only group of the match is read on
  show Dry (highlighter.reader.enterRule readOn text ⟨s, 0, none, first⟩ found ⟨2⟩ rule) _
  unfold LineReader.enterRule
  refine Dry.after (x := Read.produce _ _) rfl (Dry.bind ?_ _)
  show Dry (highlighter.reader.readGroups readOn text _ _ [(⟨4⟩, ⟨0, 1⟩)] []) _
  rw [LineReader.readGroups]
  refine Dry.after (x := modifyGet _) rfl (Dry.after (x := Read.produce _ _) rfl (Dry.bind ?_ _))
  unfold LineReader.readOnGroup
  dsimp only
  rw [htext]
  exact hinner _ _ _ rfl rfl

/-- The scanner of the only pattern. -/
def scanner : RoleScanner Unit :=
  ⟨⟨1, fun text start => pure (Literal.search ["a".toList] text start)⟩, [.enter ⟨2⟩]⟩

/-- The rule that reads on the text of the group has that scanner, whether or not it is in the cache
already. -/
theorem scannerInside_eq (first : Bool) {inside : List RuleId}
    (hinside : inside = [⟨1⟩] ∨ inside = [⟨1⟩, ⟨3⟩]) :
    (Search.scannerInside highlighter.reader.engine highlighter.reader.rules.table ⟨3⟩ none
      ⟨first, false⟩).run ⟨cache inside, ()⟩ = .ok scanner ⟨cache [⟨1⟩, ⟨3⟩], ()⟩ := by
  obtain rfl | rfl := hinside
  · cases first with
    | false => rfl
    | true => rfl
  · rfl

/-- The text of the group is read on with a match of the same rule. -/
theorem nextMatch_eq {s : LineState} (hrule : s.top.rule = ⟨3⟩) (hclosing : s.top.closing = none)
    (first : Bool) {inside : List RuleId} (hinside : inside = [⟨1⟩] ∨ inside = [⟨1⟩, ⟨3⟩])
    (t : Segments) :
    (highlighter.reader.nextMatch "a" ⟨s, 0, none, first⟩).run ⟨⟨cache inside, ()⟩, t⟩ =
      .ok (some found) ⟨⟨cache [⟨1⟩, ⟨3⟩], ()⟩, t⟩ := by
  have hsearch : (highlighter.reader.matchInside "a" ⟨s, 0, none, first⟩ ⟨3⟩ none).run
      ⟨⟨cache inside, ()⟩, t⟩ = .ok (some found) ⟨⟨cache [⟨1⟩, ⟨3⟩], ()⟩, t⟩ := by
    have hanchors : Cursor.anchors ⟨s, 0, none, first⟩ = ⟨first, false⟩ := rfl
    unfold LineReader.matchInside
    rw [Read.run_search, hanchors, EStateM.run_bind, scannerInside_eq first hinside]
    rfl
  unfold LineReader.nextMatch
  dsimp only
  rw [hrule, hclosing, EStateM.run_bind, hsearch]
  rfl

/-- Reading on the text of the group runs dry, whatever its depth. -/
theorem dry_readOn (depth : Nat) (s : LineState) (first : Bool) (t : Segments)
    (hrule : s.top.rule = ⟨3⟩) (hclosing : s.top.closing = none) {inside : List RuleId}
    (hinside : inside = [⟨1⟩] ∨ inside = [⟨1⟩, ⟨3⟩]) :
    Dry (highlighter.reader.readOn depth "a" ⟨s, 0, none, first⟩) ⟨⟨cache inside, ()⟩, t⟩ := by
  induction depth generalizing s first t inside with
  | zero => exact ⟨_, rfl⟩
  | succ depth ih =>
    obtain ⟨limit, hlimit⟩ : ∃ limit, highlighter.reader.roundLimit "a" s = limit + 1 := ⟨_, rfl⟩
    rw [LineReader.readOn]
    unfold LineReader.readGroup
    rw [hlimit]
    refine Dry.bind (dry_rounds (by decide) (nextMatch_eq hrule hclosing first hinside t) ?_ limit
      none (by simp)) _
    exact fun s first t hrule hclosing => ih s first t hrule hclosing (.inr rfl)

/-- **No number of levels is enough** for a line with a match whose text is read on by the rule of
the match again. -/
theorem not_enough :
    Ruleset.ofDefinition {} definition = .ok rules ∧ (Engine.literal Unit).Bounded ∧
      Session.Reached highlighter ⟨highlighter, ⟨{}, ()⟩, []⟩ ∧
      ∀ depth, ¬ Session.Enough ⟨highlighter, ⟨{}, ()⟩, []⟩ "a" none none depth := by
  refine ⟨ofDefinition_eq, Engine.bounded_literal, .begins (), fun depth => not_not_intro ?_⟩
  have hline : Dry (highlighter.reader.readLineWith (highlighter.reader.readOn depth) "a\n"
      highlighter.initialState true none) ⟨⟨{}, ()⟩, {}⟩ := by
    refine Dry.after (x := highlighter.reader.beginLine _ _ _ _) rfl ?_
    obtain ⟨limit, hlimit⟩ : ∃ limit, highlighter.reader.roundLimit "a\n"
      highlighter.initialState = limit + 1 := ⟨_, rfl⟩
    dsimp only
    rw [hlimit]
    have hnext : (highlighter.reader.nextMatch "a\n" ⟨highlighter.initialState, 0, none, true⟩).run
        ⟨⟨{}, ()⟩, {}⟩ = .ok (some found) ⟨⟨cache [⟨1⟩], ()⟩, {}⟩ := rfl
    refine dry_rounds (by decide) hnext ?_ limit none (by simp)
    exact fun s first t hrule hclosing => dry_readOn depth s first t hrule hclosing (.inl rfl)
  exact hline

end Circular
end Highlight
