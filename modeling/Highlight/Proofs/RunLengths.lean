import Highlight.Proofs.Coverage
import Highlight.Proofs.Repeatable
import Highlight.Proofs.Sufficing
import Mathlib.Data.List.Destutter

/-!
# Runs are what remains of tokens

Tokens and runs are two views of the segments of a line, and the runs can be told from the tokens:
each token has the attributes that its scopes resolve to, pushed one by one, and neighbours with
equal attributes are taken together. That is clear of the segments, whose paths carry just these
attributes. It is less clear of what is shown of them, for the segment of the line end is taken off
the tokens before, and off the runs after neighbours are taken together. It makes no difference,
since the last run begins with the line end only if nothing was taken together with it.

Both views are those of one line read twice, and so all of this rests on the line being read in the
same way both times.
-/

namespace Highlight

open Grammar

variable {σ : Type}

/-! ## Attributes and names -/

namespace Attribution

/-- **The path of some names**, outermost first, pushed one by one onto that of the first. -/
def ofNames (a : Attribution) : List String → AttributedPath
  | [] => a.root ""
  | name :: rest => rest.foldl a.pushScope (a.root name)

theorem ofNames_concat (a : Attribution) {names : List String} (h : names ≠ []) (scope : String) :
    a.ofNames (names ++ [scope]) = a.pushScope (a.ofNames names) scope := by
  cases names with
  | nil => exact absurd rfl h
  | cons name rest => exact List.foldl_concat ..

/-- A path has the attributes that its names resolve to. -/
def Resolves (a : Attribution) (p : AttributedPath) : Prop := a.ofNames p.names = p

theorem resolves_root (a : Attribution) (name : String) : a.Resolves (a.root name) := rfl

theorem keeps_resolves (a : Attribution) : a.Keeps a.Resolves := by
  intro p scope hp
  have hnames : (a.pushScope p scope).names = p.names ++ [scope] := ScopePath.names_push p.path _
  have hne : p.names ≠ [] := by simp [AttributedPath.names, ScopePath.names]
  rw [Resolves, hnames, ofNames_concat a hne, hp]

end Attribution

/-! ## Taking neighbours together -/

/-- Two runs differ in their attributes. -/
def Run.Differs (r s : Run) : Prop := r.attributes ≠ s.attributes

instance : DecidableRel Run.Differs := fun r s =>
  inferInstanceAs (Decidable (r.attributes ≠ s.attributes))

namespace Segments

/-- Runs that do not differ are told apart from others in the same way, but the first stays. -/
theorem destutter'_of_not_differs {r s : Run} (h : ¬ r.Differs s) (rest : List Run) :
    rest.destutter' Run.Differs r = r :: (rest.destutter' Run.Differs s).tail := by
  have hrs : r.attributes = s.attributes := not_not.1 h
  induction rest with
  | nil => rfl
  | cons next rest ih =>
    by_cases hnext : s.Differs next
    · have hnext' : r.Differs next := by rwa [Run.Differs, hrs]
      rw [List.destutter'_cons_pos _ hnext, List.destutter'_cons_pos _ hnext', List.tail_cons]
    · have hnext' : ¬ r.Differs next := by rwa [Run.Differs, hrs]
      rw [List.destutter'_cons_neg _ hnext, List.destutter'_cons_neg _ hnext', ih]

/-- The first run stays first. -/
theorem destutter'_eq_cons (r : Run) (rest : List Run) :
    rest.destutter' Run.Differs r = r :: (rest.destutter' Run.Differs r).tail :=
  destutter'_of_not_differs (fun h => h rfl) rest

/-- **Taking neighbours together** leaves out every run that does not differ from the one before. -/
theorem mergeRuns_eq_destutter (runs : List Run) : mergeRuns runs = runs.destutter Run.Differs := by
  induction runs with
  | nil => rfl
  | cons r rest ih =>
    rw [mergeRuns, ih, List.destutter_cons']
    cases rest with
    | nil => rfl
    | cons s rest =>
      rw [List.destutter_cons', destutter'_eq_cons s rest]
      dsimp only
      split
      · next hsame =>
        have hnot : ¬ r.Differs s := not_not.2 hsame
        rw [List.destutter'_cons_neg _ hnot, destutter'_of_not_differs hnot]
      · next hdiffers =>
        rw [List.destutter'_cons_pos _ hdiffers, destutter'_eq_cons s rest]
        rfl

/-- One more run at the end stays or is left out, and changes nothing of the others. -/
theorem destutter_concat (runs : List Run) (last : Run) :
    (runs ++ [last]).destutter Run.Differs = runs.destutter Run.Differs ∨
      (runs ++ [last]).destutter Run.Differs = runs.destutter Run.Differs ++ [last] := by
  cases runs with
  | nil => exact .inr rfl
  | cons r rest =>
    rw [List.cons_append, List.destutter_cons', List.destutter_cons']
    induction rest generalizing r with
    | nil =>
      rw [List.nil_append, List.destutter'_singleton, List.destutter'_nil]
      split
      · exact .inr rfl
      · exact .inl rfl
    | cons s rest ih =>
      rw [List.cons_append, List.destutter'_cons, List.destutter'_cons]
      split
      · refine (ih s).imp (fun h => ?_) (fun h => ?_)
        · rw [h]
        · rw [h, List.cons_append]
      · exact ih r

/-! ## Runs of tokens -/

/-- **The run of a token**: where it begins, and the attributes that its scopes resolve to. -/
def runOf (o : Overrides) (a : Attribution) (t : Token) : Run :=
  ⟨t.span.start, o.attributes (a.ofNames t.scopes)⟩

/-- **Runs encode tokens**: they are the runs of the tokens, neighbours with equal attributes taken
together. So they begin where the line does, go forward, and each differs from the next. -/
structure Encode (o : Overrides) (a : Attribution) (runs : List Run) (tokens : List Token) :
    Prop where
  /-- The runs of the tokens, without those that do not differ from the one before. -/
  merged : runs = (tokens.map (runOf o a)).destutter Run.Differs
  /-- The first begins where the line does. -/
  begins : runs.head?.map (·.start) = some 0
  /-- They go forward. -/
  forward : runs.Pairwise (fun r s => r.start < s.start)
  /-- Each differs from the next. -/
  differ : runs.IsChain Run.Differs

/-- Clipping changes neither where tokens begin nor their scopes. -/
theorem map_runOf_clipLast (o : Overrides) (a : Attribution) (stop : Nat) (ts : List Token) :
    (clipLast stop ts).map (runOf o a) = ts.map (runOf o a) := by
  obtain rfl | ⟨init, last, rfl⟩ := ts.eq_nil_or_concat
  · rfl
  · have hclip : runOf o a (clip stop last) = runOf o a last := by
      rw [clip]
      split <;> rfl
    rw [List.concat_eq_append, clipLast_concat, List.map_append, List.map_append,
      List.map_singleton, List.map_singleton, hclip]

/-- Nothing is left out that begins elsewhere. -/
theorem dropLastAt_of_forall {α : Type} {start : α → Nat} {position : Nat} {xs : List α}
    (h : ∀ x ∈ xs, start x ≠ position) : dropLastAt start position xs = xs := by
  unfold dropLastAt
  rw [if_neg]
  intro hany
  obtain ⟨x, hx, hstart⟩ := (Option.any_eq_true _ _).1 hany
  exact h x (List.mem_of_getLast? hx) (beq_iff_eq.1 hstart)

theorem dropLastAt_concat {α : Type} {start : α → Nat} {position : Nat} {xs : List α} {x : α}
    (h : start x = position) : dropLastAt start position (xs ++ [x]) = xs := by
  simp [dropLastAt, h]

/-- What begins at one of some stretches that tile the line begins before they end. -/
theorem start_lt_of_tile {start stop : Nat} {ts : List Token}
    (h : Span.Tile start (ts.map (·.span)) stop) : ∀ t ∈ ts, t.span.start < stop := by
  induction ts generalizing start with
  | nil => exact fun t ht => by simp at ht
  | cons u ts ih =>
    obtain ⟨-, hlt, hrest⟩ := h
    exact List.forall_mem_cons.2 ⟨Nat.lt_of_lt_of_le hlt hrest.le, ih hrest⟩

variable {o : Overrides} {a : Attribution} {size : Nat} {t : Segments}

/-- The runs of all segments are those of all tokens. -/
theorem map_runOf_all (h : t.Sound a.Resolves size) :
    t.stretches.map (fun (span, scopes) => (⟨span.start, o.attributes scopes⟩ : Run)) =
      t.all.map (runOf o a) := by
  rw [all, List.map_map]
  refine List.map_congr_left (fun p hp => ?_)
  show _ = (⟨p.1.start, o.attributes (a.ofNames p.2.names)⟩ : Run)
  rw [h.good p hp]

/-- **The runs of a line** are those of its tokens, neighbours with equal attributes taken
together. -/
theorem runs_eq_destutter (h : t.Sound a.Resolves (size + 1)) (hreached : t.reached = size + 1)
    {last : AttributedPath} (hlast : a.Resolves last) :
    t.runs o last size = ((t.tokens last size).map (runOf o a)).destutter Run.Differs := by
  obtain ⟨init, u, hall, hinit, hlt, -⟩ := exists_all_eq_concat h (by omega)
  have hstart : ∀ r ∈ init.map (runOf o a), r.start < u.span.start :=
    List.forall_mem_map.2 (start_lt_of_tile hinit)
  have hmem : ∀ {r} {rs : List Run}, r ∈ rs.destutter Run.Differs → r ∈ rs :=
    fun hr => (List.destutter_sublist _ _).mem hr
  have hruns : t.runs o last size =
      if (dropLastAt (·.start) size ((t.all.map (runOf o a)).destutter Run.Differs)).isEmpty then
        [⟨0, o.attributes last⟩]
      else dropLastAt (·.start) size ((t.all.map (runOf o a)).destutter Run.Differs) := by
    rw [← mergeRuns_eq_destutter, ← map_runOf_all h]
    rfl
  rw [hruns, hall, List.map_append, List.map_singleton, tokens_concat hall]
  by_cases hend : u.span.start = size
  -- the line end is a segment by itself: its run is left out, or was not there any more
  · have hshown : dropLastAt (·.start) size
        ((init.map (runOf o a) ++ [runOf o a u]).destutter Run.Differs) =
          (init.map (runOf o a)).destutter Run.Differs := by
      obtain hdrop | hdrop := destutter_concat (init.map (runOf o a)) (runOf o a u)
      · rw [hdrop]
        exact dropLastAt_of_forall (fun r hr => Nat.ne_of_lt (hend ▸ hstart r (hmem hr)))
      · rw [hdrop]
        exact dropLastAt_concat hend
    rw [hshown, if_pos hend, map_runOf_clipLast]
    cases init with
    | nil =>
      show [(⟨0, o.attributes last⟩ : Run)] = [⟨0, o.attributes (a.ofNames last.names)⟩]
      rw [hlast]
    | cons v init =>
      rw [List.map_cons, List.destutter_cons', destutter'_eq_cons]
      simp only [List.isEmpty_cons, Bool.false_eq_true, if_false, List.map_cons]
      rw [List.destutter_cons', ← destutter'_eq_cons]
  -- the line end is the last byte of the last segment, and no run begins with it
  · have hshown : dropLastAt (·.start) size
        ((init.map (runOf o a) ++ [runOf o a u]).destutter Run.Differs) =
          (init.map (runOf o a) ++ [runOf o a u]).destutter Run.Differs := by
      refine dropLastAt_of_forall (fun r hr => ?_)
      obtain hr | hr := List.mem_append.1 (hmem hr)
      · have := hstart r hr
        omega
      · rw [List.mem_singleton.1 hr]
        exact hend
    rw [hshown, if_neg hend, if_neg (by simp), ← clipLast_concat, map_runOf_clipLast,
      List.map_append, List.map_singleton]

/-- What tiles the line goes forward. -/
theorem pairwise_start_of_tile {start stop : Nat} {ts : List Token}
    (h : Span.Tile start (ts.map (·.span)) stop) :
    ts.Pairwise (fun t u => t.span.start < u.span.start) ∧ ∀ t ∈ ts, start ≤ t.span.start := by
  induction ts generalizing start with
  | nil => exact ⟨.nil, fun t ht => by simp at ht⟩
  | cons u ts ih =>
    obtain ⟨rfl, hlt, hrest⟩ := h
    obtain ⟨hforward, hle⟩ := ih hrest
    refine ⟨List.pairwise_cons.2 ⟨fun t ht => Nat.lt_of_lt_of_le hlt (hle t ht), hforward⟩, ?_⟩
    exact List.forall_mem_cons.2
      ⟨Nat.le_refl _, fun t ht => Nat.le_trans (Nat.le_of_lt hlt) (hle t ht)⟩

/-- The tokens of a line go forward from its beginning. -/
theorem tokens_forward {good : AttributedPath → Prop} (h : t.Sound good (size + 1))
    (hreached : t.reached = size + 1) (last : AttributedPath) :
    (t.tokens last size).head?.map (·.span.start) = some 0 ∧
      (t.tokens last size).Pairwise (fun t u => t.span.start < u.span.start) := by
  by_cases hsize : size = 0
  · subst hsize
    rw [tokens_empty h hreached]
    exact ⟨rfl, List.pairwise_singleton _ _⟩
  · have htile := tile_tokens h hreached hsize last
    refine ⟨?_, (pairwise_start_of_tile htile).1⟩
    cases htokens : t.tokens last size with
    | nil =>
      rw [htokens] at htile
      exact absurd (htile : 0 = size).symm hsize
    | cons u ts =>
      rw [htokens] at htile
      exact congrArg some htile.1

/-- **The runs of a line encode its tokens**, if all its scopes have the attributes that their names
resolve to. -/
theorem encode_runs (h : t.Sound a.Resolves (size + 1)) (hreached : t.reached = size + 1)
    {last : AttributedPath} (hlast : a.Resolves last) :
    Encode o a (t.runs o last size) (t.tokens last size) := by
  have hmerged := runs_eq_destutter (o := o) h hreached hlast
  obtain ⟨hbegins, hforward⟩ := tokens_forward h hreached last
  refine ⟨hmerged, ?_, ?_, ?_⟩
  · rw [hmerged]
    cases htokens : t.tokens last size with
    | nil => simp [htokens] at hbegins
    | cons u ts =>
      rw [htokens] at hbegins
      rw [List.map_cons, List.destutter_cons', destutter'_eq_cons]
      exact hbegins
  · rw [hmerged]
    have hruns : ((t.tokens last size).map (runOf o a)).Pairwise (fun r s => r.start < s.start) :=
      List.pairwise_map.2 hforward
    exact hruns.sublist (List.destutter_sublist _ _)
  · rw [hmerged]
    exact List.isChain_destutter _ _

end Segments

/-! ## Sessions whose theme does not change -/

namespace Session

/-- **The sessions of a highlighter whose theme does not change.** -/
inductive Steady (h : Highlighter σ) : Session σ → Prop
  /-- Nothing has been read. -/
  | begins (engine : σ) : Steady h ⟨h, ⟨{}, engine⟩, []⟩
  /-- A line is read, from no state or one that a line ended in. -/
  | reads {s : Session σ} (line : String) {previous : Option LineState} (budget : Option Nat)
      {segments : Segments} {state : LineState} {stopped : Bool} {searching : Searching σ}
      (before : Steady h s) (known : ∀ p ∈ previous, p ∈ s.states)
      (run : (s.highlighter.read line previous budget).run s.searching =
        .ok (segments, state, stopped) searching) :
      Steady h ⟨s.highlighter, searching, state :: s.states⟩
  /-- A line cannot be read. -/
  | fails {s : Session σ} (line : String) {previous : Option LineState} (budget : Option Nat)
      {e : LineError} {searching : Searching σ}
      (before : Steady h s) (known : ∀ p ∈ previous, p ∈ s.states)
      (run : (s.highlighter.read line previous budget).run s.searching = .error e searching) :
      Steady h ⟨s.highlighter, searching, s.states⟩
  /-- From now on, reading goes on for longer, or not for as long. -/
  | relimits {s : Session σ} (limits : Limits) (before : Steady h s) :
      Steady h ⟨s.highlighter.withLimits limits, s.searching, s.states⟩
  /-- Someone else uses the engine. -/
  | shares {s : Session σ} (engine : σ) (before : Steady h s) :
      Steady h ⟨s.highlighter, { s.searching with engine := engine }, s.states⟩

namespace Steady

variable {h : Highlighter σ} {s : Session σ}

theorem reached (hs : Steady h s) : Reached h s := by
  induction hs with
  | begins engine => exact .begins engine
  | reads line budget _ known run ih => exact .reads line budget ih known run
  | fails line budget _ known run ih => exact .fails line budget ih known run
  | relimits limits _ ih => exact .relimits limits ih
  | shares engine _ ih => exact .shares engine ih

theorem readTexts (hs : Steady h s) (texts : List (List String)) : Steady h (s.readTexts texts) :=
  readTexts_keeps (Steady h) .reads .fails hs texts

/-- Nothing but the limits of the highlighter is changed. -/
theorem withLimits_eq (hs : Steady h s) (limits : Limits) :
    s.highlighter.withLimits limits = h.withLimits limits := by
  induction hs with
  | begins => rfl
  | reads _ _ _ _ _ ih => exact ih
  | fails _ _ _ _ _ ih => exact ih
  | relimits _ _ ih => exact ih
  | shares _ _ ih => exact ih

theorem highlighter_eq (hs : Steady h s) :
    s.highlighter = h.withLimits s.highlighter.reader.limits := hs.withLimits_eq _

/-- The state that a line is read from is sound, if the states of the session are. -/
theorem state_of_previous {name : String} (hrules : h.reader.rules.Sound name)
    {good : AttributedPath → Prop} (hroot : good (h.reader.attribution.root name))
    (hs : ∀ p ∈ s.states, p.Sound h.reader.rules.root good) {previous : Option LineState}
    (hprevious : ∀ p ∈ previous, p ∈ s.states) :
    (previous.elim h.initialState (·.reset)).Sound h.reader.rules.root good := by
  cases previous with
  | none =>
    rw [Option.elim_none, Highlighter.initialState_eq hrules]
    exact .initial hroot
  | some p => exact (hs p (hprevious p rfl)).reset

/-- **All states are sound**, for what is kept by pushing scopes with the one theme. -/
theorem sound {name : String} (hrules : h.reader.rules.Sound name) {good : AttributedPath → Prop}
    (hkeeps : h.reader.attribution.Keeps good) (hroot : good (h.reader.attribution.root name))
    (hs : Steady h s) : ∀ p ∈ s.states, p.Sound h.reader.rules.root good := by
  induction hs with
  | begins engine => exact fun p hp => by simp at hp
  | @reads s line previous budget segments state stopped searching before known run ih =>
    have hcache := (before.reached.sound hrules Attribution.keeps_true (fun _ => trivial)).cache
    have hstate := state_of_previous hrules hroot ih known
    let K := LineReader.Kept.ofScopes (h.withLimits s.highlighter.reader.limits).reader hkeeps
      (fun _ => True) (fun _ => trivial) (fun _ => trivial)
    rw [before.highlighter_eq] at run
    have hline : K.text (line ++ "\n") := trivial
    have hread := Highlighter.read_ensures (K := K) (.inl trivial) trivial trivial hline hstate
      budget
    exact List.forall_mem_cons.2 ⟨(hread.ok hcache run).state, ih⟩
  | fails line budget _ _ _ ih => exact ih
  | relimits limits _ ih => exact ih
  | shares engine _ ih => exact ih

/-- **What reading a line yields** of such a session, with a bounded engine: segments up to the end
of the line, and a state, whose scopes all have the attributes that their names resolve to. -/
theorem resolves_of_read {name : String} (hrules : h.reader.rules.Sound name)
    (hengine : h.reader.engine.KeepsToText) (hs : Steady h s) {limits : Limits} {line : String}
    {previous : Option LineState} (hprevious : ∀ p ∈ previous, p ∈ s.states) {segments : Segments}
    {state : LineState} {stopped : Bool} {searching : Searching σ}
    (hrun : ((h.withLimits limits).read line previous none).run s.searching =
      .ok (segments, state, stopped) searching) :
    segments.Sound h.reader.attribution.Resolves (line.utf8ByteSize + 1) ∧
      segments.reached = line.utf8ByteSize + 1 ∧
      h.reader.attribution.Resolves state.top.contentScopes := by
  have hkeeps := h.reader.attribution.keeps_resolves
  have hroot := h.reader.attribution.resolves_root name
  have hcache := (hs.reached.sound hrules Attribution.keeps_true (fun _ => trivial)).cache
  have hstate := state_of_previous hrules hroot (hs.sound hrules hkeeps hroot) hprevious
  have hline := Text.utf8ByteSize_append_lineEnd line
  let K := LineReader.Kept.bounded (h.withLimits limits).reader hkeeps hengine
    (line.utf8ByteSize + 1) (fun _ => True) (fun _ => trivial) (fun _ => trivial)
  have hread := Highlighter.read_ensures (K := K) (.inl trivial) trivial Segments.Sound.empty
    (Nat.le_of_eq hline) hstate none
  have hended := hread.ok hcache hrun
  have hsegments : segments.Sound h.reader.attribution.Resolves (line.utf8ByteSize + 1) :=
    hended.sound.segments
  refine ⟨hsegments, Nat.le_antisymm hsegments.reached ?_,
    LineReader.Kept.State.content hended.state⟩
  rw [← hline]
  exact hended.reached (hended.unstopped rfl)

/-- **The runs of a line encode its tokens**, whatever was read before either, and whatever limits
sufficed for either, if the engine keeps to the text and is oblivious, and closing texts are known
in time. -/
theorem encode_of_tokenize {catalog : Catalog} {d : Definition} {rules : Ruleset}
    (hrules : Ruleset.ofDefinition catalog d = .ok rules) (htimely : rules.Timely)
    {engine : Engine σ} (htext : engine.KeepsToText) (hoblivious : engine.Oblivious) {theme : Theme}
    {language : Nat} {configuration : Option Configuration} {s u : Session σ}
    (hs : Steady (.make rules theme engine language configuration) s)
    (hu : Steady (.make rules theme engine language configuration) u) {line : String}
    {previous : Option LineState} (hprevious : ∀ p ∈ previous, p ∈ s.states)
    {limits limits' : Limits} {tokens : Tokenized Token} {runs : Tokenized Run}
    {searching searching' : Searching σ}
    (htokens : ((s.highlighter.withLimits limits).tokenize line previous none).run s.searching =
      .ok tokens searching)
    (hruns : ((u.highlighter.withLimits limits').tokenizeRuns line previous none).run u.searching =
      .ok runs searching') :
    runs.state = tokens.state ∧
      Segments.Encode s.highlighter.overrides s.highlighter.reader.attribution runs.tokens
        tokens.tokens := by
  obtain ⟨⟨segments, state, stopped⟩, hread, rfl⟩ := exists_run_of_bind_pure htokens
  obtain ⟨⟨segments', state', stopped'⟩, hread', rfl⟩ := exists_run_of_bind_pure hruns
  have hsound := Ruleset.sound_of_ofDefinition hrules
  have hknown : ∀ p ∈ previous, ∃ o,
      Reached (.make rules theme engine language configuration) o ∧ p ∈ o.states :=
    fun p hp => ⟨s, hs.reached, hprevious p hp⟩
  -- within limits that suffice for both, the line was read in the same way both times
  have hread :=
    hs.reached.read_withLimits_of_ok hsound (limits.atMost_sup_left limits') hknown hread
  have hread' :=
    hu.reached.read_withLimits_of_ok hsound (limits.atMost_sup_right limits') hknown hread'
  have hsame : s.highlighter.reader.attribution.theme = u.highlighter.reader.attribution.theme := by
    rw [hs.highlighter_eq, hu.highlighter_eq]
    rfl
  have houtcome := hs.reached.outcome_read_eq hrules htimely hoblivious hu.reached hsame
    (limits.sup limits') line hknown none
  rw [outcome, hread, outcome, hread'] at houtcome
  obtain ⟨rfl, rfl, rfl⟩ : segments = segments' ∧ state = state' ∧ stopped = stopped' := by
    simpa using houtcome
  rw [hs.withLimits_eq] at hread
  obtain ⟨hsegments, hreached, hstate⟩ := hs.resolves_of_read hsound htext hprevious hread
  rw [hs.highlighter_eq, hu.highlighter_eq]
  exact ⟨rfl, Segments.encode_runs hsegments hreached hstate⟩

end Steady

/-- The runs of a line, if it can be read. -/
def runs? (s : Session σ) (line : String) (previous : Option LineState) : Option (List Run) :=
  match (s.highlighter.tokenizeRuns line previous none).run s.searching with
  | .ok r _ => some r.tokens
  | .error .. => none

/-- A line with runs can be read. -/
theorem exists_run_of_runs? {s : Session σ} {line : String} {previous : Option LineState}
    {runs : List Run} (h : s.runs? line previous = some runs) :
    ∃ r searching, (s.highlighter.tokenizeRuns line previous none).run s.searching =
      .ok r searching ∧ r.tokens = runs := by
  unfold runs? at h
  split at h
  · next r searching hrun => exact ⟨r, searching, hrun, Option.some.inj h⟩
  · simp at h

/-- A grammar of strings with letters in them. -/
def strings : Definition where
  scopeName := "text"
  patterns := [{
    name := some "string"
    opening := some "<"
    closing := some ">"
    patterns := some [{ pattern := some "a", name := some "letter" }] }]

/-- The highlighter of that grammar, for plain texts. -/
def stringHighlighter : Highlighter Unit :=
  .make (compiled strings) .standard (.literal Unit) 1 none

/-- A line of five tokens has two runs, whatever lines were read before. -/
theorem encode_of_tokenize_strings : ∃ t r,
    (start stringHighlighter ()).tokens? "x<ab>" none = some t ∧
    ((start stringHighlighter ()).readTexts [["a>", "<"]]).runs? "x<ab>" none = some r ∧
    t.map (·.span.start) = [0, 1, 2, 3, 4] ∧ r.map (·.start) = [0, 1] ∧
    Segments.Encode stringHighlighter.overrides stringHighlighter.reader.attribution r t := by
  have hrules : Ruleset.ofDefinition {} strings = .ok (compiled strings) :=
    Ruleset.eq_ok_orEmpty (by decide +kernel)
  have hs : Steady stringHighlighter (start stringHighlighter ()) := .begins ()
  have hread : ∃ t ∈ (start stringHighlighter ()).tokens? "x<ab>" none,
      ∃ r ∈ ((start stringHighlighter ()).readTexts [["a>", "<"]]).runs? "x<ab>" none,
        t.map (·.span.start) = [0, 1, 2, 3, 4] ∧ r.map (·.start) = [0, 1] := by
    decide +kernel
  obtain ⟨t, ht, r, hr, hstarts, hruns⟩ := hread
  obtain ⟨tokens, _, htokens, rfl⟩ := exists_run_of_tokens? ht
  obtain ⟨runs, _, hrun, rfl⟩ := exists_run_of_runs? hr
  refine ⟨tokens.tokens, runs.tokens, ht, hr, hstarts, hruns, ?_⟩
  exact (hs.encode_of_tokenize hrules (by decide +kernel) Engine.bounded_literal.keepsToText
    Engine.oblivious_literal (hs.readTexts [["a>", "<"]]) (fun p hp => by simp at hp) htokens
    hrun).2

/-- **The runs of a line need not encode its tokens** where a closing text is not known in time,
since the line may yield something else when it is read for its runs. -/
theorem not_encode_early :
    OfGrammar early (regexSession early []) ∧
    Steady (.make (compiled early) .standard (.regex Unit) 1 none) (regexSession early []) ∧
    Steady (.make (compiled early) .standard (.regex Unit) 1 none)
      (regexSession early [["<b|!!xx>"]]) ∧
    (Engine.regex Unit).Oblivious ∧
    ∃ t r, (regexSession early []).tokens? "<b|!!xx>" none = some t ∧
      (regexSession early [["<b|!!xx>"]]).runs? "<b|!!xx>" none = some r ∧
      t.map (·.span) = [⟨0, 2⟩, ⟨2, 3⟩, ⟨3, 5⟩, ⟨5, 7⟩, ⟨7, 8⟩] ∧ r.map (·.start) = [0] ∧
      ¬ Segments.Encode {} (.make 1 [] .standard) r t := by
  refine ⟨ofGrammar_regexSession (by decide +kernel) _, .readTexts (.begins ()) _,
    .readTexts (.begins ()) _, Engine.oblivious_regex, ?_⟩
  have hread : ∃ t ∈ (regexSession early []).tokens? "<b|!!xx>" none,
      ∃ r ∈ (regexSession early [["<b|!!xx>"]]).runs? "<b|!!xx>" none,
        t.map (·.span) = [⟨0, 2⟩, ⟨2, 3⟩, ⟨3, 5⟩, ⟨5, 7⟩, ⟨7, 8⟩] ∧ r.map (·.start) = [0] ∧
        ((t.map (Segments.runOf {} (.make 1 [] .standard))).destutter Run.Differs).map (·.start) =
          [0, 5, 7] := by
    decide +kernel
  obtain ⟨t, ht, r, hr, hspans, hruns, hmerged⟩ := hread
  refine ⟨t, r, ht, hr, hspans, hruns, fun h => ?_⟩
  rw [← h.merged, hruns] at hmerged
  exact absurd hmerged (by decide)

end Session

end Highlight
