import Highlight.Proofs.Places
import Highlight.Proofs.Repeatable

/-!
# Who closes a region

The patterns that close regions all have the same role, which says that the region on top is closed
and not which region the pattern belongs to. A match may be taken for the end of the region on top
only because no pattern that closes another region is looked for there. What is looked for are the
patterns of the rule on top and those of the injections. Only a rule that is itself a region has a
closing pattern among its patterns; so the match **closes its own** region if injections are no
regions, and if the pattern is looked for with the closing text of the frame on top, which is so
where closing texts are known in time.

An injection may be a region, though. It is then looked for by its closing pattern everywhere, and a
match of that takes away whatever is on top.
-/

namespace Highlight

open Grammar
open Selector (Priority)

variable {σ : Type}

/-- The engine finds this in a text, from a position on, with a list of patterns, whatever state it
is in. -/
def Engine.FindsWith (e : Engine σ) (texts : List String) (text : String) (start : Nat)
    (f : Found) : Prop :=
  ∀ state, ∃ s state', (e.compile texts).run state = (.ok s, state') ∧
    ∀ state, ((s.find text start).run state).1 = some f

/-- **Of a list of patterns, the engine finds this one**, where these anchors hold. -/
def Engine.FindsPattern (e : Engine σ) (patterns : List Pattern) (a : Anchors) (text : String)
    (start : Nat) (p : Pattern) (captures : Captures) : Prop :=
  ∃ f, e.FindsWith (patterns.map (·.textWith a)) text start f ∧ patterns[f.index]? = some p ∧
    f.captures = captures

namespace Grammar

/-- **The pattern that closes a region**, with its closing text if it refers to groups. -/
def RuleTable.closingPattern? (t : RuleTable) (id : RuleId) (closing : Option String) :
    Option Pattern :=
  match t.body? id with
  | some (.region _ delimiter _ _) =>
    if delimiter.pattern.hasReferences then
      closing.map (fun text => { delimiter.pattern with text := text })
    else some delimiter.pattern
  | _ => none

/-- What is planned to be found is found, for one of the patterns. -/
theorem findsPattern_of_search {e : Engine σ} {plan : Plan} (hplan : e.KeepsTo plan)
    {patterns : List Pattern} {a : Anchors} {text : String} {start : Nat} {m : RuleMatch}
    (h : search plan patterns a text start = .ok (some m)) :
    ∃ p ∈ patterns, p.role = m.role ∧ e.FindsPattern patterns a text start p m.captures := by
  unfold search at h
  dsimp only at h
  split at h
  · simp at h
  · next find hfind =>
    obtain ⟨f, hf, hm⟩ := Option.bind_eq_some_iff.1 (Except.ok.inj h)
    obtain ⟨role, hrole, rfl⟩ := Option.map_eq_some_iff.1 hm
    rw [List.getElem?_map] at hrole
    obtain ⟨p, hp, rfl⟩ := Option.map_eq_some_iff.1 hrole
    refine ⟨p, List.mem_of_getElem? hp, rfl, f, fun state => ?_, hp, rfl⟩
    have hmade := hplan (patterns.map (·.textWith a)) state
    rw [hfind] at hmade
    obtain ⟨s, hs, hgives⟩ := hmade
    exact ⟨s, _, Prod.ext hs rfl, fun state => (hgives text start state).trans hf⟩

/-- What is found for one of the patterns was planned to be found. -/
theorem search_of_findsPattern {e : Engine σ} {plan : Plan} (hplan : e.KeepsTo plan) (state : σ)
    {patterns : List Pattern} {a : Anchors} {text : String} {start : Nat} {p : Pattern}
    {captures : Captures} (h : e.FindsPattern patterns a text start p captures) :
    search plan patterns a text start = .ok (some ⟨p.role, captures⟩) := by
  obtain ⟨f, hfinds, hp, rfl⟩ := h
  obtain ⟨s, state', hs, hf⟩ := hfinds state
  have hmade := hplan (patterns.map (·.textWith a)) state
  rw [hs] at hmade
  unfold search
  dsimp only
  split
  · next hreason => simp [hreason] at hmade
  · next find hfind =>
    rw [hfind] at hmade
    obtain ⟨s', hs', hgives⟩ := hmade
    obtain rfl := Except.ok.inj hs'
    rw [← hgives text start state, hf state, Option.bind_some, List.getElem?_map, hp]
    rfl

namespace RuleTable

variable {t : RuleTable} {id : RuleId} {closing : Option String} {p : Pattern}

/-- The last of some patterns is changed. -/
theorem modify_last (patterns : List Pattern) (last : Pattern) (change : Pattern → Pattern) :
    (patterns ++ [last]).modify ((patterns ++ [last]).length - 1) change =
      patterns ++ [change last] := by
  rw [List.modify_eq_take_cons_drop (by simp)]
  simp

/-- **The patterns that are looked for inside a region** whose closing text is known: that which
closes it, and before or after it those of the rules inside. -/
theorem exists_closingPattern {opening delimiter : Delimiter} {last : Bool} {inside : Inside}
    (hbody : t.body? id = some (.region opening delimiter last inside))
    (hknown : t.refersBack id = true → closing.isSome = true) :
    ∃ p, t.closingPattern? id closing = some p ∧
      t.withClosing id closing (t.patternsOf id) =
        if last then t.entriesInside inside ++ [p] else p :: t.entriesInside inside := by
  have hpatterns : t.patternsOf id = if last then t.entriesInside inside ++ [delimiter.pattern]
      else delimiter.pattern :: t.entriesInside inside := by
    unfold patternsOf
    rw [hbody]
  unfold closingPattern? withClosing
  rw [hbody, hpatterns]
  by_cases hrefers : delimiter.pattern.hasReferences = true
  · obtain ⟨text, rfl⟩ := Option.isSome_iff_exists.1 (hknown (by
      rw [refersBack, hbody]
      exact hrefers))
    dsimp only
    rw [if_pos hrefers, if_pos hrefers]
    refine ⟨_, rfl, ?_⟩
    cases last with
    | true => exact modify_last _ _ _
    | false => exact List.modify_zero_cons _ _ _
  · dsimp only
    rw [if_neg hrefers]
    refine ⟨_, rfl, ?_⟩
    cases closing with
    | none => rfl
    | some text => exact if_neg hrefers

/-- **What closes is the closing pattern**, among the patterns that are looked for inside a rule
whose closing text is known. -/
theorem closingPattern?_eq_of_mem (ht : t.Sound)
    (hknown : t.refersBack id = true → closing.isSome = true)
    (hp : p ∈ t.withClosing id closing (t.patternsOf id)) (hrole : p.role = .close) :
    t.closingPattern? id closing = some p := by
  have hrole' : p.role ∈ t.rolesOf id := by
    rw [rolesOf, ← map_role_withClosing closing]
    exact List.mem_map_of_mem hp
  obtain ⟨entered, hentered⟩ | ⟨-, opening, delimiter, last, inside, hbody⟩ :=
    role_of_mem_rolesOf ht hrole'
  · rw [hrole] at hentered
    simp at hentered
  -- the patterns of the rules inside enter a rule
  · have hinside : p ∉ t.entriesInside inside := by
      intro hp
      obtain ⟨entered, hentered⟩ := role_of_mem_entriesInside ht hp
      rw [hrole] at hentered
      simp at hentered
    obtain ⟨own, hown, hpatterns⟩ := exists_closingPattern hbody hknown
    rw [hpatterns] at hp
    have heq : p = own := by
      split at hp
      · exact List.mem_singleton.1 ((List.mem_append.1 hp).resolve_left hinside)
      · exact (List.mem_cons.1 hp).resolve_right hinside
    rw [hown, heq]

end RuleTable

end Grammar

namespace LineReader

variable {r : LineReader σ} {plan : Plan} {text : String} {c : Cursor}

/-- What a search ensures is ensured of reading, which fails as it is refused. -/
theorem search_ensures_refused {α : Type} {x : Search σ α} {P : Searching σ → Prop}
    {M : α → Searching σ → Prop} {R : Refusal → Searching σ → Prop} (h : Ensures P x M R) :
    Ensures (fun t => P t.searching) (Read.search x) (fun a t => M a t.searching)
      (fun e t => ∃ refusal, e = .refused refusal ∧ R refusal t.searching) := by
  intro t ht
  rw [Read.run_search]
  cases hx : x.run t.searching with
  | ok a s => exact h.ok ht hx
  | error refusal s => exact ⟨refusal, rfl, h.error ht hx⟩

/-- What a search ensures of the cache is ensured of reading. -/
theorem search_ensures {α : Type} {x : Search σ α} {P : Searching σ → Prop} {p : α → Prop}
    (h : Ensures P x (fun a s => P s ∧ p a) (fun _ => P)) :
    Ensures (fun t => P t.searching) (Read.search x) (fun a t => P t.searching ∧ p a)
      (fun _ t => P t.searching) :=
  (search_ensures_refused h).mono (fun _ ht => ht) (fun _ _ ht => ht) (fun _ _ ⟨_, _, ht⟩ => ht)

/-- The cache of a reading is faithful. -/
def CacheFaithful (plan : Plan) (table : RuleTable) (t : Reading σ) : Prop :=
  t.searching.cache.Faithful plan table

/-- What is looked for inside a rule is found as planned. -/
theorem matchInside_asPlanned (hplan : r.engine.KeepsTo plan) (text : String) (c : Cursor)
    {id : RuleId} {closing : Option String}
    (hknown : r.rules.table.refersBack id = true → closing.isSome = true) :
    Ensures (CacheFaithful plan r.rules.table) (r.matchInside text c id closing)
      (fun m t => CacheFaithful plan r.rules.table t ∧
        search plan (r.rules.table.withClosing id closing (r.rules.table.patternsOf id)) c.anchors
          text c.position = .ok m)
      (fun _ => CacheFaithful plan r.rules.table) :=
  search_ensures ((Search.inside_asPlanned hplan hknown c.anchors text c.position).mono
    (fun _ h => h) (fun _ _ h => h) (fun _ _ h => h.1))

/-- **Reading keeps a faithful cache.** -/
theorem respects_cacheFaithful (hplan : r.engine.KeepsTo plan) :
    r.Respects (Same (CacheFaithful plan r.rules.table)) where
  cut := fun _ => Same.parallel (Ensures.modifyGet (fun _ ht => ⟨ht, trivial⟩))
  inside := fun text c _ _ hknown =>
    Same.parallel ((matchInside_asPlanned hplan text c hknown).mono (fun _ h => h)
      (fun _ _ h => ⟨h.1, fun _ hm' => RuleTable.role_mem_of_search (Option.mem_def.1 hm' ▸ h.2)⟩)
      (fun _ _ h => h))
  continuing := fun text c =>
    Same.parallel (search_ensures ((Search.continuing_asPlanned hplan _ _ c.anchors text
      c.position).mono (fun _ h => h) (fun _ _ h => ⟨h.1, trivial⟩) (fun _ _ h => h.1)))

/-- **A match that closes is found for the rule on top**, if no injection is a region. -/
theorem nextMatch_asPlanned (hplan : r.engine.KeepsTo plan) (htable : r.rules.table.Sound)
    (hharmless : r.rules.Harmless) (htimely : r.rules.Timely) (hc : c.state.Settled r.rules) :
    Ensures (CacheFaithful plan r.rules.table) (r.nextMatch text c)
      (fun m _ => ∀ m' ∈ m, m'.role = .close →
        search plan (r.rules.table.withClosing c.state.top.rule c.state.top.closing
          (r.rules.table.patternsOf c.state.top.rule)) c.anchors text c.position = .ok (some m'))
      (fun _ _ => True) := by
  refine Ensures.bind ((matchInside_asPlanned hplan text c hc.top).mono (fun _ h => h)
    (fun _ _ h => h) (fun _ _ _ => trivial)) (fun m => Ensures.assuming (fun hm => ?_))
  have hnone : ∀ b ∈ (none : Option (Priority × RuleMatch)), b.2.role = .close →
      ¬ r.rules.Harmless := fun _ hb => by simp at hb
  have hinjections := (respects_cacheFaithful hplan).matchInjections htable htimely text c
    c.state.top.contentScopes.names (fun _ hi => hi) hnone
  refine Ensures.bind ((Same.ensures hinjections).mono (fun _ h => h) (fun _ _ h => h)
    (fun _ _ _ => trivial)) (fun injected => Ensures.pure (fun t ht m' hm' hclose => ?_))
  obtain hm' | ⟨b, hb, rfl⟩ := mem_preferred hm'
  · rw [hm, Option.mem_def.1 hm']
  · exact absurd hharmless (ht.2 b hb hclose)

/-- **A match closes its own region**: the frame on top is not the lowest, and of the patterns that
are looked for inside its rule, that which closes its region was found. -/
structure ClosesOwn (r : LineReader σ) (text : String) (c : Cursor) (m : RuleMatch) : Prop where
  /-- The frame on top is not the lowest. -/
  inside : c.state.below ≠ []
  /-- The pattern that closes its region was found. -/
  own : ∃ p, r.rules.table.closingPattern? c.state.top.rule c.state.top.closing = some p ∧
    r.engine.FindsPattern (r.rules.table.withClosing c.state.top.rule c.state.top.closing
      (r.rules.table.patternsOf c.state.top.rule)) c.anchors text c.position p m.captures

/-- A match that closes closes its own region, where the stack is settled and the cache faithful. -/
theorem closesOwn_of_nextMatch (hplan : r.engine.KeepsTo plan) {name : String}
    (hrules : r.rules.Sound name) (hharmless : r.rules.Harmless) (htimely : r.rules.Timely)
    {good : AttributedPath → Prop} (hsound : c.state.Sound r.rules.root good)
    (hc : c.state.Settled r.rules) {t t' : Reading σ} (ht : CacheFaithful plan r.rules.table t)
    {m : RuleMatch} (hnext : (r.nextMatch text c).run t = .ok (some m) t')
    (hclose : m.role = .close) : r.ClosesOwn text c m := by
  obtain ⟨p, hp, hrole, hfinds⟩ := findsPattern_of_search hplan
    ((nextMatch_asPlanned hplan hrules.table hharmless htimely hc).ok ht hnext m rfl hclose)
  have hown := RuleTable.closingPattern?_eq_of_mem hrules.table hc.top hp (hrole.trans hclose)
  refine ⟨fun hbelow => ?_, p, hown, hfinds⟩
  -- the rule of the lowest frame only holds others
  obtain ⟨held, hroot⟩ := hrules.root
  rw [hsound.rule_eq_root hbelow, RuleTable.closingPattern?, RuleTable.body?, hroot] at hown
  simp at hown

/-- What is planned to be found of the patterns of the rule on top. -/
def plannedOnTop? (plan : Plan) (r : LineReader σ) (text : String) (c : Cursor) :
    Option Captures :=
  match search plan (r.rules.table.withClosing c.state.top.rule c.state.top.closing
    (r.rules.table.patternsOf c.state.top.rule)) c.anchors text c.position with
  | .ok m => m.map (·.captures)
  | .error _ => none

/-- A match that closes its own region is what is planned to be found for the rule on top. -/
theorem ClosesOwn.plannedOnTop?_eq (hplan : r.engine.KeepsTo plan) (state : σ) {m : RuleMatch}
    (h : r.ClosesOwn text c m) : plannedOnTop? plan r text c = some m.captures := by
  obtain ⟨p, -, hfinds⟩ := h.own
  rw [plannedOnTop?, search_of_findsPattern hplan state hfinds]
  rfl

end LineReader

namespace Session

/-- **The places that reading a line of a session comes to.** -/
abbrev ComesTo (s : Session σ) (line : String) (previous : Option LineState) :
    Nat → String → Cursor → Reading σ → Prop :=
  s.highlighter.reader.ComesTo (line ++ "\n") (previous.elim s.highlighter.initialState (·.reset))
    previous.isNone s.searching

/-- **A match that closes a region closes its own**: wherever reading a line comes to, also inside
the texts of groups, however deep the limits of the session let them be, if no injection is a
region, closing texts are known in time, and the engine is oblivious. -/
theorem Reached.closesOwn {catalog : Catalog} {d : Definition} {rules : Ruleset}
    (hrules : Ruleset.ofDefinition catalog d = .ok rules) (hharmless : rules.Harmless)
    (htimely : rules.Timely) {engine : Engine σ} (hengine : engine.Oblivious) {theme : Theme}
    {language : Nat} {configuration : Option Configuration} {s : Session σ}
    (hs : Reached (.make rules theme engine language configuration) s) {line : String}
    {previous : Option LineState} (hprevious : ∀ p ∈ previous, p ∈ s.states) {depth : Nat}
    {text : String} {c : Cursor} {t t' : Reading σ}
    (hplace : s.ComesTo line previous depth text c t) {m : RuleMatch}
    (hnext : (s.highlighter.reader.nextMatch text c).run t = .ok (some m) t')
    (hclose : m.role = .close) : s.highlighter.reader.ClosesOwn text c m := by
  obtain ⟨plan, hplan⟩ := hengine
  have hsound := Ruleset.sound_of_ofDefinition hrules
  have hknown := hs.allKnown hrules (fun p hp => ⟨s, hs, hprevious p hp⟩)
  have hfaithful := hs.faithful hrules htimely hplan
  have hs := hs.sound_of_ofDefinition hrules
  have hstate := hs.state_of_previous hsound (fun _ => trivial) hprevious
  have hrules' : s.highlighter.reader.rules = rules := hs.rules
  have hengine' : s.highlighter.reader.engine = engine := hs.engine
  rw [← hrules'] at hsound hharmless htimely hfaithful hknown
  rw [← hengine'] at hplan
  let K := LineReader.Kept.ofScopes s.highlighter.reader (Attribution.keeps_true _) (fun _ => True)
    (fun _ => trivial) (fun _ => trivial)
  have hbefore : K.Sound ⟨s.searching, {}⟩ := ⟨by rw [hs.rules, hs.engine]; exact hs.cache, trivial⟩
  obtain ⟨hstands, -⟩ := hplace.stands (K := K) (.inl trivial) trivial trivial hstate hbefore
  obtain ⟨hsettled, ht⟩ := hplace.settled (LineReader.respects_cacheFaithful hplan) hsound.table
    htimely hknown hfaithful
  exact LineReader.closesOwn_of_nextMatch hplan hsound hharmless htimely hstands.state hsettled ht
    hnext hclose

/-- The match that is found first on a line, and the cursor there. -/
def firstMatch? (s : Session σ) (line : String) (previous : Option LineState) :
    Option (Cursor × RuleMatch) :=
  let r := s.highlighter.reader
  let text := line ++ "\n"
  let start := previous.elim s.highlighter.initialState (·.reset)
  match (r.beginLine (r.readOn r.limits.levels) text start previous.isNone).run
    ⟨s.searching, {}⟩ with
  | .error .. => none
  | .ok c t =>
    match (r.nextMatch text c).run t with
    | .ok (some m) _ => some (c, m)
    | .ok none _ | .error .. => none

/-- Reading a line comes to where its first match is found. -/
theorem comesTo_of_firstMatch? {s : Session σ} {line : String} {previous : Option LineState}
    {c : Cursor} {m : RuleMatch} (h : s.firstMatch? line previous = some (c, m)) :
    ∃ depth t t', s.ComesTo line previous depth (line ++ "\n") c t ∧
      (s.highlighter.reader.nextMatch (line ++ "\n") c).run t = .ok (some m) t' := by
  unfold firstMatch? at h
  dsimp only at h
  split at h
  · simp at h
  · next hbegins =>
    split at h
    · next hnext =>
      obtain ⟨rfl, rfl⟩ := Prod.mk.inj (Option.some.inj h)
      exact ⟨_, _, _, .begins hbegins, hnext⟩
    · simp at h
    · simp at h

/-- A grammar with regions that are closed by the text that opened them, and with a harmless
injection. -/
def remarks : Definition where
  scopeName := "text"
  patterns := [{
    name := some "quoted"
    opening := some "<(.)"
    closing := some "\\1>"
    patterns := some [{ reference := some "$self" }] }]
  injections := [("quoted", { pattern := some "!" })]

/-- Inside two regions, the closing text of the inner one closes the inner one. -/
theorem closesOwn_remarks : ∃ p ∈ (regexSession remarks [["<a<b"]]).states,
    ∃ depth c t t' m, (regexSession remarks [["<a<b"]]).ComesTo "ab>!" (some p) depth "ab>!\n" c t ∧
      ((regexSession remarks [["<a<b"]]).highlighter.reader.nextMatch "ab>!\n" c).run t =
        .ok (some m) t' ∧
      m = ⟨.close, [some ⟨1, 3⟩]⟩ ∧ c.state.top.closing = some "b>" ∧
      (regexSession remarks [["<a<b"]]).highlighter.reader.ClosesOwn "ab>!\n" c m := by
  obtain ⟨hrules, hs⟩ := ofGrammar_regexSession (d := remarks) (by decide +kernel) [["<a<b"]]
  have hfirst : ∃ p ∈ (regexSession remarks [["<a<b"]]).states,
      ∃ x ∈ (regexSession remarks [["<a<b"]]).firstMatch? "ab>!" (some p),
        x.2 = ⟨.close, [some ⟨1, 3⟩]⟩ ∧ x.1.state.top.closing = some "b>" := by
    decide +kernel
  obtain ⟨p, hp, ⟨c, m⟩, hfirst, hm, hclosing⟩ := hfirst
  obtain ⟨depth, t, t', hplace, hnext⟩ := comesTo_of_firstMatch? hfirst
  have hprevious : ∀ q ∈ some p, q ∈ (regexSession remarks [["<a<b"]]).states :=
    fun q hq => Option.some.inj hq ▸ hp
  exact ⟨p, hp, depth, c, t, t', m, hplace, hnext, hm, hclosing,
    hs.closesOwn hrules (by decide +kernel) (by decide +kernel) Engine.oblivious_regex hprevious
      hplace hnext (congrArg RuleMatch.role hm)⟩

/-- A grammar with a region, and with an injection that is a region. -/
def meddling : Definition where
  scopeName := "text"
  patterns := [{ name := some "region", opening := some "<", closing := some ">" }]
  injections := [("text", { opening := some "x", closing := some "y" })]

/-- **A match may close a region that is not its own**, or even the lowest frame, if an injection is
a region. -/
theorem not_closesOwn_meddling :
    OfGrammar meddling (regexSession meddling [["<"]]) ∧ (compiled meddling).Timely ∧
    (∃ p ∈ (regexSession meddling [["<"]]).states,
      (regexSession meddling [["<"]]).tokens? "y>" (some p) =
        some [⟨⟨0, 1⟩, ["text", "region"]⟩, ⟨⟨1, 2⟩, ["text"]⟩] ∧
      ∃ depth c t t' m, (regexSession meddling [["<"]]).ComesTo "y>" (some p) depth "y>\n" c t ∧
        ((regexSession meddling [["<"]]).highlighter.reader.nextMatch "y>\n" c).run t =
          .ok (some m) t' ∧
        m.role = .close ∧
        ¬ (regexSession meddling [["<"]]).highlighter.reader.ClosesOwn "y>\n" c m) ∧
    ∃ depth c t t' m, (regexSession meddling [["<"]]).ComesTo "y" none depth "y\n" c t ∧
      ((regexSession meddling [["<"]]).highlighter.reader.nextMatch "y\n" c).run t =
        .ok (some m) t' ∧
      m.role = .close ∧ c.state.below = [] := by
  have hregion : ∃ p ∈ (regexSession meddling [["<"]]).states,
      (regexSession meddling [["<"]]).tokens? "y>" (some p) =
        some [⟨⟨0, 1⟩, ["text", "region"]⟩, ⟨⟨1, 2⟩, ["text"]⟩] ∧
      ∃ x ∈ (regexSession meddling [["<"]]).firstMatch? "y>" (some p), x.2.role = .close ∧
        LineReader.plannedOnTop? Regex.plan (regexSession meddling [["<"]]).highlighter.reader
          "y>\n" x.1 ≠ some x.2.captures := by
    decide +kernel
  have hlowest : ∃ x ∈ (regexSession meddling [["<"]]).firstMatch? "y" none,
      x.2.role = .close ∧ x.1.state.below = [] := by
    decide +kernel
  refine ⟨ofGrammar_regexSession (by decide +kernel) _, by decide +kernel, ?_, ?_⟩
  · obtain ⟨p, hp, htokens, ⟨c, m⟩, hfirst, hrole, hplanned⟩ := hregion
    obtain ⟨depth, t, t', hplace, hnext⟩ := comesTo_of_firstMatch? hfirst
    have hengine : (regexSession meddling [["<"]]).highlighter.reader.engine = .regex Unit := by
      rw [regexSession, highlighter_readTexts]
      rfl
    refine ⟨p, hp, htokens, depth, c, t, t', m, hplace, hnext, hrole, fun hown => ?_⟩
    exact hplanned (hown.plannedOnTop?_eq (hengine ▸ Engine.keepsTo_regex) ())
  · obtain ⟨⟨c, m⟩, hfirst, hrole, hbelow⟩ := hlowest
    obtain ⟨depth, t, t', hplace, hnext⟩ := comesTo_of_firstMatch? hfirst
    exact ⟨depth, c, t, t', m, hplace, hnext, hrole, hbelow⟩

end Session

end Highlight
