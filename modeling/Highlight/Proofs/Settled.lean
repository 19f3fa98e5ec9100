import Highlight.Proofs.Faithful
import Highlight.Proofs.OpenRegions
import Highlight.Proofs.Progress

/-!
# Settled stacks

The frame of a region is put on the stack before the groups of the match that opened it are read,
and its closing text is known only after that. Nothing is looked for inside the region in between,
since the frame for the text of a group lies on top of it – unless that frame is left and reading
goes on below it, which takes a closing pattern. The frame for the group has one if it is itself
that of a region, and an injection that is a region lends its own to any frame.

So closing texts are known **in time** if the groups of an opening match that is referred back to
are not read on by regions, nor at all where an injection is a region. Then every frame that reading
may come to has its closing text: the stack is **settled**.

That it stays so is shown together with what it is good for. Searching inside a rule that has its
closing text may be said to find the same in readings that differ in their caches, or to keep
something of the cache. Either way there is a relation between readings that the steps which cut
and search **respect**, and then all steps of a reader respect it, from a settled stack. As
elsewhere, all of this is shown for two readers that differ in how the texts of groups are read on.
-/

namespace Highlight

open Grammar
open Selector (Priority)

variable {σ : Type}

namespace Grammar

/-- The rule of a number is a region. -/
def RuleTable.isRegion (t : RuleTable) (id : RuleId) : Bool := (t.body? id).any (·.isRegion)

/-- The rules that are complete. -/
def RuleTable.complete (t : RuleTable) : List Rule := t.rules.toList.filterMap id

theorem RuleTable.mem_complete {t : RuleTable} {id : RuleId} {rule : Rule}
    (h : t.get? id = some rule) : rule ∈ t.complete := by
  obtain ⟨n, rfl, -⟩ := RuleTable.exists_place h
  rw [RuleTable.get?_eq, Option.join_eq_some_iff] at h
  exact List.mem_filterMap.2 ⟨some rule, List.mem_of_getElem? h, rfl⟩

/-- What the text of a group is read on by, if it is the group of this rule. -/
def RuleBody.reader? : RuleBody → Option RuleId
  | .capture within => within
  | .single _ | .choice _ | .region .. | .block .. => none

/-- The rules for the groups of the match that opens a region. -/
def RuleBody.openingCaptures : RuleBody → CaptureRules
  | .region opening .. => opening.captures
  | .single _ | .choice _ | .block .. | .capture _ => {}

/-- The rules that the texts of groups are read on by. -/
def RuleTable.readers (t : RuleTable) (c : CaptureRules) : List RuleId :=
  c.rules.filterMap (fun (_, id) => (t.body? id).bind (·.reader?))

/-- **Closing texts are known in time.** -/
structure Ruleset.Timely (rules : Ruleset) : Prop where
  /-- No injection refers back. -/
  injections : ∀ i ∈ rules.injections, rules.table.refersBack i.rule = false
  /-- Nothing that texts of groups are read on by refers back. -/
  readers : ∀ rule ∈ rules.table.complete, ∀ within ∈ rule.body.reader?,
    rules.table.refersBack within = false
  /-- The groups of a match that is referred back to are not read on by regions, nor where an
  injection is a region. -/
  openings : ∀ rule ∈ rules.table.complete, rule.body.refersBack = true →
    ∀ within ∈ rules.table.readers rule.body.openingCaptures,
      rules.table.isRegion within = false ∧ rules.Harmless

instance (rules : Ruleset) : Decidable rules.Timely :=
  decidable_of_iff
    ((∀ i ∈ rules.injections, rules.table.refersBack i.rule = false) ∧
      (∀ rule ∈ rules.table.complete, ∀ within ∈ rule.body.reader?,
        rules.table.refersBack within = false) ∧
      ∀ rule ∈ rules.table.complete, rule.body.refersBack = true →
        ∀ within ∈ rules.table.readers rule.body.openingCaptures,
          rules.table.isRegion within = false ∧ rules.Harmless)
    ⟨fun h => ⟨h.1, h.2.1, h.2.2⟩, fun h => ⟨h.injections, h.readers, h.openings⟩⟩

end Grammar

namespace LineState

variable {rules : Ruleset}

/-- The closing text of a frame is known, if its rule refers back. -/
def ClosingKnown (rules : Ruleset) (f : Frame) : Prop :=
  rules.table.refersBack f.rule = true → f.closing.isSome = true

/-- All closing texts are known. -/
def AllKnown (rules : Ruleset) (s : LineState) : Prop := ∀ f ∈ s.frames, ClosingKnown rules f

theorem AllKnown.pop {s : LineState} (h : s.AllKnown rules) : s.pop.AllKnown rules := by
  obtain ⟨top, below⟩ := s
  cases below with
  | nil => exact h
  | cons f fs => exact (List.forall_mem_cons.1 h).2

/-- No closing pattern can take a frame away: it is not that of a region, and no injection is
one. -/
def Stays (rules : Ruleset) (f : Frame) : Prop :=
  rules.table.isRegion f.rule = false ∧ rules.Harmless

/-- All frames that reading may come to have their closing text. -/
def SettledFrom (rules : Ruleset) (f : Frame) : List Frame → Prop
  | [] => ClosingKnown rules f
  | g :: fs => ClosingKnown rules f ∧ (Stays rules f ∨ SettledFrom rules g fs)

/-- **A stack is settled** if all frames that reading may come to have their closing text. -/
def Settled (rules : Ruleset) (s : LineState) : Prop := SettledFrom rules s.top s.below

namespace Settled

/-- A frame depends on what is in it only by its rule and its closing text. -/
theorem congr_top {f f' : Frame} {fs : List Frame} (h : SettledFrom rules f fs)
    (hrule : f'.rule = f.rule) (hclosing : f'.closing = f.closing) : SettledFrom rules f' fs := by
  cases fs with
  | nil =>
    unfold SettledFrom ClosingKnown at *
    rwa [hrule, hclosing]
  | cons g fs =>
    unfold SettledFrom ClosingKnown Stays at *
    rwa [hrule, hclosing]

theorem top {s : LineState} (h : s.Settled rules) : ClosingKnown rules s.top := by
  obtain ⟨top, below⟩ := s
  cases below with
  | nil => exact h
  | cons f fs => exact h.1

/-- A stack all of whose closing texts are known is settled. -/
theorem of_allKnown {s : LineState} (h : s.AllKnown rules) : s.Settled rules := by
  obtain ⟨top, below⟩ := s
  induction below generalizing top with
  | nil => exact h top List.mem_cons_self
  | cons f fs ih =>
    obtain ⟨htop, hbelow⟩ := List.forall_mem_cons.1 h
    exact ⟨htop, .inr (ih f hbelow)⟩

theorem withContentScopes {s : LineState} (h : s.Settled rules) (scopes : AttributedPath) :
    (s.withContentScopes scopes).Settled rules :=
  congr_top h rfl rfl

/-- A frame that may be taken away leaves a settled stack. -/
theorem pop {s : LineState} (h : s.Settled rules) (hstays : ¬ Stays rules s.top) :
    s.pop.Settled rules := by
  obtain ⟨top, below⟩ := s
  cases below with
  | nil => exact h
  | cons f fs => exact h.2.resolve_left hstays

/-- A frame with its closing text may be put on a settled stack. -/
theorem push {s : LineState} (h : s.Settled rules) {f : Frame} (hf : ClosingKnown rules f) :
    (s.push f).Settled rules := ⟨hf, .inr h⟩

/-- A frame that stays may be put on any stack. -/
theorem push_stays (s : LineState) {f : Frame} (hf : ClosingKnown rules f)
    (hstays : Stays rules f) : (s.push f).Settled rules := ⟨hf, .inl hstays⟩

end Settled

/-- A stack is settled with the frame for the text of a group on it, for all groups of a match that
are read on. -/
def SettledWith (rules : Ruleset) (s : LineState) (c : CaptureRules) : Prop :=
  ∀ within ∈ rules.table.readers c, ∀ f : Frame, f.rule = within → (s.push f).Settled rules

namespace SettledWith

/-- The closing text of a frame for the text of a group is not needed. -/
theorem closingKnown (htimely : rules.Timely) {c : CaptureRules} {within : RuleId}
    (h : within ∈ rules.table.readers c) {f : Frame} (hf : f.rule = within) :
    ClosingKnown rules f := by
  obtain ⟨⟨n, id⟩, -, hid⟩ := List.mem_filterMap.1 h
  obtain ⟨body, hbody, hwithin⟩ := Option.bind_eq_some_iff.1 hid
  obtain ⟨rule, hrule, rfl⟩ := Option.map_eq_some_iff.1 hbody
  have hnot := htimely.readers rule (RuleTable.mem_complete hrule) within hwithin
  intro hrefers
  rw [hf, hnot] at hrefers
  exact absurd hrefers (by simp)

/-- All groups may be read on where the stack is settled. -/
theorem of_settled (htimely : rules.Timely) {s : LineState} (h : s.Settled rules)
    (c : CaptureRules) : s.SettledWith rules c :=
  fun _ hwithin _ hf => h.push (closingKnown htimely hwithin hf)

/-- The groups of an opening match may be read on where the stack below is settled. -/
theorem entering (htimely : rules.Timely) {s : LineState} (h : s.Settled rules) {f : Frame}
    {rule : Rule} (hrule : rules.table.get? f.rule = some rule) :
    (s.push f).SettledWith rules rule.body.openingCaptures := by
  by_cases hrefers : rule.body.refersBack = true
  · intro within hwithin g hg
    refine Settled.push_stays _ (closingKnown htimely hwithin hg) ?_
    have hopening := htimely.openings rule (RuleTable.mem_complete hrule) hrefers within hwithin
    rwa [← hg] at hopening
  · refine of_settled htimely (h.push (fun hrefersBack => ?_)) _
    rw [RuleTable.refersBack, RuleTable.body?, hrule] at hrefersBack
    exact absurd hrefersBack hrefers

end SettledWith

end LineState

namespace LineReader

/-- **A reader respects** a relation between readings: from related ones, cutting leads to related
ones, and so does searching, which finds the same as long as closing texts are known. -/
structure Respects (r : LineReader σ) (R : Reading σ → Reading σ → Prop) : Prop where
  /-- Cutting. -/
  cut : ∀ {α : Type} (g : Segments → α × Segments),
    Parallel R
      (modifyGet (fun t => ((g t.segments).1, { t with segments := (g t.segments).2 })) : Read σ α)
      (modifyGet (fun t => ((g t.segments).1, { t with segments := (g t.segments).2 })))
      (fun _ => True)
  /-- Searching inside a rule. -/
  inside : ∀ text c {id} {closing : Option String},
    (r.rules.table.refersBack id = true → closing.isSome = true) →
      Parallel R (r.matchInside text c id closing) (r.matchInside text c id closing)
        (fun m => ∀ m' ∈ m, m'.role ∈ r.rules.table.rolesOf id)
  /-- Searching for the continuing pattern of a block. -/
  continuing : ∀ text c,
    Parallel R (r.matchContinuing text c) (r.matchContinuing text c) (fun _ => True)

namespace Respects

variable {r : LineReader σ} {R : Reading σ → Reading σ → Prop} {text : String} {c : Cursor}
  {f g : ReadOn σ}

/-! ## Searching and cutting -/

theorem produce (hr : r.Respects R) (p : AttributedPath) (n : Nat) :
    Parallel R (Read.produce p n) (Read.produce p n) (fun _ => True) :=
  hr.cut (fun t => ((), t.produce p n))

/-- Only a region is closed. -/
theorem matchInside (hr : r.Respects R) (htable : r.rules.table.Sound) {id : RuleId}
    {closing : Option String}
    (hknown : r.rules.table.refersBack id = true → closing.isSome = true) :
    Parallel R (r.matchInside text c id closing) (r.matchInside text c id closing)
      (fun m => ∀ m' ∈ m, m'.role = .close → r.rules.table.isRegion id = true) := by
  refine (hr.inside text c hknown).mono (fun m hm m' hm' hclose => ?_)
  obtain ⟨entered, hentered⟩ | ⟨-, opening, delimiter, last, inside, hbody⟩ :=
    RuleTable.role_of_mem_rolesOf htable (hm m' hm')
  · rw [hclose] at hentered
    simp at hentered
  · rw [RuleTable.isRegion, hbody]
    rfl

theorem matchInjections (hr : r.Respects R) (htable : r.rules.table.Sound)
    (htimely : r.rules.Timely) (text : String) (c : Cursor) (scopes : List String)
    {list : List Injection} (hlist : ∀ i ∈ list, i ∈ r.rules.injections)
    {best : Option (Priority × RuleMatch)}
    (hbest : ∀ b ∈ best, b.2.role = .close → ¬ r.rules.Harmless) :
    Parallel R (r.matchInjections text c scopes list best)
      (r.matchInjections text c scopes list best)
      (fun b => ∀ b' ∈ b, b'.2.role = .close → ¬ r.rules.Harmless) := by
  induction list generalizing best with
  | nil => exact Parallel.pure hbest
  | cons i rest ih =>
    obtain ⟨hi, hrest⟩ := List.forall_mem_cons.1 hlist
    have hskip := ih hrest hbest
    have hknown : r.rules.table.refersBack i.rule = true →
        (none : Option String).isSome = true := by
      rw [htimely.injections i hi]
      simp
    rw [LineReader.matchInjections]
    split
    · refine Parallel.bind (hr.matchInside htable hknown) (fun m hm => ?_)
      cases m with
      | none => exact hskip
      | some m =>
        have hfound : ∀ b ∈ some (i.part.priority, m), b.2.role = .close → ¬ r.rules.Harmless := by
          intro b hb hclose hharmless
          obtain rfl := Option.some.inj hb
          exact absurd (hm m rfl hclose) (by rw [RuleTable.isRegion, hharmless i hi]; simp)
        dsimp only
        split
        · exact hskip
        · split
          · exact Parallel.pure hfound
          · exact ih hrest hfound
    · exact hskip

/-- **The next match.** Where it closes, the frame on top may be taken away. -/
theorem nextMatch (hr : r.Respects R) (htable : r.rules.table.Sound) (htimely : r.rules.Timely)
    (hc : c.state.Settled r.rules) :
    Parallel R (r.nextMatch text c) (r.nextMatch text c)
      (fun m => ∀ m' ∈ m, m'.role = .close → ¬ LineState.Stays r.rules c.state.top) := by
  refine Parallel.bind (hr.matchInside htable hc.top) (fun m hm => ?_)
  refine Parallel.bind (hr.matchInjections htable htimely _ _ _ (fun _ hi => hi)
    (fun _ hb => by simp at hb)) (fun injected hinjected => Parallel.pure ?_)
  intro m' hm' hclose hstays
  obtain hm' | ⟨b, hb, rfl⟩ := mem_preferred hm'
  · exact absurd (hm m' hm' hclose) (by rw [hstays.1]; simp)
  · exact hinjected b hb hclose hstays.2

/-! ## The texts of groups -/

/-- Two ways to read on the texts of groups run in parallel, wherever the stack is settled. -/
def Beside (r : LineReader σ) (R : Reading σ → Reading σ → Prop) (f g : ReadOn σ) : Prop :=
  ∀ text c, c.state.Settled r.rules → Parallel R (f text c) (g text c) (fun _ => True)

/-- What the text of a group is read on by is one of the readers. -/
theorem mem_readers {t : RuleTable} {rules : CaptureRules} {captures : Captures} {whole : Span}
    {p : RuleId × Span} (hp : p ∈ rules.groups captures whole) {within : RuleId}
    (hbody : t.body? p.1 = some (.capture (some within))) : within ∈ t.readers rules := by
  obtain ⟨q, hq, hspan⟩ := List.mem_filterMap.1 ((List.takeWhile_sublist _).mem hp)
  obtain ⟨s, -, rfl⟩ := Option.map_eq_some_iff.1 hspan
  refine List.mem_filterMap.2 ⟨q, hq, ?_⟩
  dsimp only at hbody ⊢
  rw [hbody]
  rfl

theorem readOnGroup (hfg : Beside r R f g) (captures : Captures) (rule : Rule) {id : RuleId}
    (hid : ∀ f : Frame, f.rule = id → (c.state.push f).Settled r.rules) (s : Span) :
    Parallel R (r.readOnGroup f text c captures rule id s)
      (r.readOnGroup g text c captures rule id s) (fun _ => True) := by
  unfold LineReader.readOnGroup
  dsimp only
  split
  · exact hfg _ _ (hid _ rfl)
  · exact Parallel.throw

theorem readGroups (hr : r.Respects R) (hfg : Beside r R f g) (captures : Captures)
    {list : List (RuleId × Span)}
    (hlist : ∀ p ∈ list, ∀ within, r.rules.table.body? p.1 = some (.capture (some within)) →
      ∀ f : Frame, f.rule = within → (c.state.push f).Settled r.rules)
    (groups : List OpenGroup) :
    Parallel R (r.readGroups f text c captures list groups)
      (r.readGroups g text c captures list groups) (fun _ => True) := by
  induction list generalizing groups with
  | nil => exact hr.cut (fun t => ((), closeAllGroups t groups))
  | cons p rest ih =>
    obtain ⟨id, s⟩ := p
    obtain ⟨hid, hrest⟩ := List.forall_mem_cons.1 hlist
    rw [LineReader.readGroups, LineReader.readGroups]
    refine Parallel.bind
      (hr.cut (fun t => ((closeGroups s.start t groups).2, (closeGroups s.start t groups).1)))
      (fun groups _ => ?_)
    refine Parallel.bind (hr.produce _ _) (fun _ _ => ?_)
    split
    · next name contentName within hrule =>
      have hbody : r.rules.table.body? id = some (.capture (some within)) := by
        rw [RuleTable.body?, hrule]
        rfl
      exact Parallel.bind (readOnGroup hfg captures _ (hid within hbody) s)
        (fun _ _ => ih hrest _)
    · exact ih hrest _
    · exact ih hrest _

/-- **Reading the groups of a match**, if the stack is settled wherever one is read on. -/
theorem readCaptures (hr : r.Respects R) (hfg : Beside r R f g) {rules : CaptureRules}
    (hc : c.state.SettledWith r.rules rules) (captures : Captures) :
    Parallel R (r.readCaptures f text c rules captures) (r.readCaptures g text c rules captures)
      (fun _ => True) := by
  unfold LineReader.readCaptures
  split
  · exact Parallel.pure trivial
  · exact hr.readGroups hfg captures (fun p hp within hbody => hc within (mem_readers hp hbody)) []

/-! ## Blocks -/

/-- Trying the open blocks leads to a stack that remains, if all closing texts are known. -/
theorem continueBlocks (hr : r.Respects R) (htimely : r.rules.Timely) (hfg : Beside r R f g)
    {blocks : List (LineState × Delimiter)} (hblocks : ∀ b ∈ blocks, b.1.AllKnown r.rules)
    (hc : c.state.AllKnown r.rules) :
    Parallel R (r.continueBlocks f text blocks c) (r.continueBlocks g text blocks c)
      (fun c => c.state.AllKnown r.rules) := by
  induction blocks generalizing c with
  | nil => exact Parallel.pure hc
  | cons b rest ih =>
    obtain ⟨s, continuing⟩ := b
    obtain ⟨hs, hrest⟩ := List.forall_mem_cons.1 hblocks
    rw [LineReader.continueBlocks, LineReader.continueBlocks]
    refine Parallel.bind (hr.continuing _ _) (fun m _ => ?_)
    split
    · split
      · exact ih hrest hc
      · refine Parallel.bind (hr.produce _ _) (fun _ _ => ?_)
        refine Parallel.bind (hr.readCaptures hfg (.of_settled htimely (.of_allKnown hs) _) _)
          (fun _ _ => ?_)
        refine Parallel.bind (hr.produce _ _) (fun _ _ => ih hrest ?_)
        rw [Kept.state_advance]
        exact hc
    · exact Parallel.pure hs.pop

theorem beginLine (hr : r.Respects R) (htimely : r.rules.Timely) (hfg : Beside r R f g)
    {s : LineState} (hs : s.AllKnown r.rules) (first : Bool) :
    Parallel R (r.beginLine f text s first) (r.beginLine g text s first)
      (fun c => c.state.AllKnown r.rules) := by
  have hblocks : ∀ b ∈ r.openBlocks s, b.1.AllKnown r.rules := fun b hb =>
    LineState.forall_mem_chain (fun _ h => h.pop) hs b.1 (Kept.mem_chain_of_mem_openBlocks b hb)
  exact hr.continueBlocks htimely hfg hblocks hs

/-! ## Rounds -/

/-- After a round that goes on, the stack is settled. -/
def GoesOn (r : LineReader σ) (R : Round) : Prop :=
  ∀ c, R = .next c → c.state.Settled r.rules

theorem finish (hr : r.Respects R) (s : LineState) :
    Parallel R (LineReader.finish text s) (LineReader.finish text s) (GoesOn r) :=
  Parallel.bind (hr.produce _ _) (fun _ _ => Parallel.pure (fun _ hc => by simp at hc))

theorem next {c' : Cursor} (h : c'.state.Settled r.rules) (n : Nat) :
    Parallel R (pure (.next (c'.advance n)) : Read σ Round) (pure (.next (c'.advance n)))
      (GoesOn r) := by
  refine Parallel.pure (fun c hc => ?_)
  obtain rfl := Round.next.inj hc
  rwa [Kept.state_advance]

/-- **A region is closed** where the frame on top may be taken away. -/
theorem closeRegion (hr : r.Respects R) (htimely : r.rules.Timely) (hfg : Beside r R f g)
    (hc : c.state.Settled r.rules) (hstays : ¬ LineState.Stays r.rules c.state.top)
    (m : RuleMatch) :
    Parallel R (r.closeRegion f text c m) (r.closeRegion g text c m) (GoesOn r) := by
  have hclosed := hc.withContentScopes c.state.top.nameScopes
  unfold LineReader.closeRegion
  dsimp only
  refine Parallel.bind (hr.produce _ _) (fun _ _ => ?_)
  refine Parallel.bind (hr.readCaptures hfg (.of_settled htimely hclosed _) _) (fun _ _ => ?_)
  refine Parallel.bind (hr.produce _ _) (fun _ _ => ?_)
  split
  · exact hr.finish _
  · exact next (hclosed.pop hstays) _

/-- **A region or a block is opened**: its closing text is known once the groups are read. -/
theorem openRegion (hr : r.Respects R) (hfg : Beside r R f g) (hc : c.state.Settled r.rules)
    (m : RuleMatch) {frame : Frame} {opening : CaptureRules}
    (hopening : (c.state.push frame).SettledWith r.rules opening)
    (contentName : Option ScopeTemplate) {ending : Pattern}
    (hending : r.rules.table.refersBack frame.rule = true → ending.hasReferences = true) :
    Parallel R (r.openRegion f text c m frame opening contentName ending)
      (r.openRegion g text c m frame opening contentName ending) (GoesOn r) := by
  unfold LineReader.openRegion
  dsimp only
  refine Parallel.bind (hr.readCaptures hfg hopening _) (fun _ _ => ?_)
  refine Parallel.bind (hr.produce _ _) (fun _ _ => ?_)
  split
  · exact hr.finish _
  · refine next ?_ _
    split
    · exact hc.push (fun _ => rfl)
    · next hrefers => exact hc.push (fun h => absurd (hending h) hrefers)

theorem enterRule (hr : r.Respects R) (htimely : r.rules.Timely) (hfg : Beside r R f g)
    (hc : c.state.Settled r.rules) (m : RuleMatch) {id : RuleId} {rule : Rule}
    (hrule : r.rules.table.get? id = some rule) :
    Parallel R (r.enterRule f text c m id rule) (r.enterRule g text c m id rule) (GoesOn r) := by
  have hrefersBack : r.rules.table.refersBack id = rule.body.refersBack := by
    rw [RuleTable.refersBack, RuleTable.body?, hrule]
    rfl
  -- only regions refer back, so that the frame of any other rule may be on the stack
  have hother : rule.body.refersBack = false → ∀ f : Frame, f.rule = id →
      (c.state.push f).Settled r.rules := by
    intro hbody f hf
    refine hc.push (fun h => ?_)
    rw [hf, hrefersBack, hbody] at h
    exact absurd h (by simp)
  unfold LineReader.enterRule
  dsimp only
  refine Parallel.bind (hr.produce _ _) (fun _ _ => ?_)
  split
  · next hregion =>
    have hopening :=
      LineState.SettledWith.entering htimely hc (f := r.entering text c m id rule) hrule
    rw [hregion] at hopening hrefersBack
    exact hr.openRegion hfg hc m hopening _ (fun h => hrefersBack.symm.trans h)
  · next hblock =>
    rw [hblock] at hother hrefersBack
    exact hr.openRegion hfg hc m (.of_settled htimely (hother rfl _ rfl) _) _
      (fun h => absurd (hrefersBack.symm.trans h) (by simp [RuleBody.refersBack]))
  · next hsingle =>
    rw [hsingle] at hother
    refine Parallel.bind (hr.readCaptures hfg (.of_settled htimely (hother rfl _ rfl) _) _)
      (fun _ _ => ?_)
    refine Parallel.bind (hr.produce _ _) (fun _ _ => ?_)
    split
    · exact hr.finish _
    · exact next hc _
  · exact hr.finish _
  · exact hr.finish _

/-- **A round** from a settled stack. -/
theorem round (hr : r.Respects R) (htable : r.rules.table.Sound) (htimely : r.rules.Timely)
    (hfg : Beside r R f g) (hc : c.state.Settled r.rules) :
    Parallel R (r.round f text c) (r.round g text c) (GoesOn r) := by
  unfold LineReader.round
  refine Parallel.bind (hr.nextMatch htable htimely hc) (fun m hm => ?_)
  split
  · exact hr.finish _
  · next m =>
    split
    · next hrole => exact hr.closeRegion htimely hfg hc (hm m rfl hrole) m
    · exact hr.finish _
    · split
      · exact hr.finish _
      · next rule hrule => exact hr.enterRule htimely hfg hc m hrule

/-- **The rounds** from a settled stack. -/
theorem rounds (hr : r.Respects R) (htable : r.rules.table.Sound) (htimely : r.rules.Timely)
    (hfg : Beside r R f g) (limit : Nat) (budget : Option Nat) (hc : c.state.Settled r.rules) :
    Parallel R (r.rounds f text limit budget c) (r.rounds g text limit budget c)
      (fun _ => True) := by
  induction limit generalizing budget c with
  | zero => exact Parallel.throw
  | succ limit ih =>
    rw [LineReader.rounds, LineReader.rounds]
    split
    · exact Parallel.pure trivial
    · refine Parallel.bind (hr.round htable htimely hfg hc) (fun R hR => ?_)
      cases R with
      | done s => exact Parallel.pure trivial
      | next c' => exact ih _ (hR c' rfl)

/-! ## Lines -/

/-- Whatever its depth, what reads on the texts of groups runs in parallel with itself. -/
theorem readOn (hr : r.Respects R) (htable : r.rules.table.Sound) (htimely : r.rules.Timely)
    (depth : Nat) : Beside r R (r.readOn depth) (r.readOn depth) := by
  induction depth with
  | zero => exact fun _ _ _ => Parallel.throw
  | succ depth ih =>
    exact fun text c hc => Parallel.bind (hr.rounds htable htimely ih _ none hc)
      (fun _ _ => Parallel.pure trivial)

/-- **Reading a line** from a state whose closing texts are known. -/
theorem readLine (hr : r.Respects R) (htable : r.rules.table.Sound) (htimely : r.rules.Timely)
    {s : LineState} (hs : s.AllKnown r.rules) (first : Bool) (budget : Option Nat) :
    Parallel R (r.readLine text s first budget) (r.readLine text s first budget)
      (fun _ => True) := by
  have hf := hr.readOn htable htimely r.limits.levels
  exact Parallel.bind (hr.beginLine htimely hf hs first)
    (fun c hc => hr.rounds htable htimely hf _ budget (.of_allKnown hc))

end Respects

end LineReader

end Highlight
