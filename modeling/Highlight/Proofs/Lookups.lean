import Highlight.Proofs.Compiling
import Highlight.Proofs.Fetching

/-!
# Which grammars compilation looks up

If what was asked for covers all that the rules refer to, compilation looks up nothing else: with
another catalog that has the same grammars for the scopes that were asked for, it does the same.
It is run with both catalogs at once, and the one run follows the other, unless it goes in too
deep.

What compilation has in sight is always the top of an opened grammar, as there are no other named
rules, and it only ever compiles rules that have been visited, rules for groups, which refer to
nothing else, and grammars as a whole. Only the grammar that counts as the base of another is
compiled with the named rules of that other in sight. That never comes to anything, since the base
has taken its number by then; so the numbers taken have to be kept track of.
-/

namespace Highlight.Grammar

/-- A grammar was asked for, and is what the catalog has. -/
structure Catalog.Got (c : Catalog) (asked : String → Prop) (d : Definition) : Prop where
  /-- It was asked for. -/
  asked : asked d.scopeName
  /-- The catalog has it. -/
  grammar : c.grammar? d.scopeName = some d

/-- An opened grammar and its base were asked for. -/
structure Opened.Got (c : Catalog) (asked : String → Prop) (o : Opened) : Prop where
  /-- The grammar. -/
  self : c.Got asked o.self
  /-- Its base. -/
  base : c.Got asked o.base

namespace Compile

variable {c c' : Catalog} {root : Definition} {asked : String → Prop} {visited : Site → Prop}
  {N N' : Site → Prop} {α β : Type}

/-! ## What is kept -/

/-- The rule at a site has a number. -/
def Numbered (st : Compilation) (site : Site) : Prop := (Keyed.get? site st.numbers).isSome

/-- **What compilation keeps**: certain rules have numbers, and the grammars opened were asked for,
and their bases have numbers, except where a grammar is its own base. -/
structure Kept (c : Catalog) (asked : String → Prop) (N : Site → Prop) (st : Compilation) :
    Prop where
  /-- The rules that have numbers. -/
  numbers : ∀ site, N site → Numbered st site
  /-- The grammars opened. -/
  opened : ∀ s o, Keyed.get? s st.opened = some o →
    o.self.scopeName = s ∧ o.Got c asked ∧ (o.base = o.self ∨ Numbered st o.base.site)

theorem Kept.weaken {st : Compilation} (h : Kept c asked N' st) (hN : ∀ s, N s → N' s) :
    Kept c asked N st :=
  ⟨fun s hs => h.numbers s (hN s hs), h.opened⟩

/-- With all rules that have numbers. -/
theorem Kept.all {st : Compilation} (h : Kept c asked N st) : Kept c asked (Numbered st) st :=
  ⟨fun _ hs => hs, h.opened⟩

/-- **Two compilations do the same**, unless the first goes in too deep, and keep what is kept. -/
def Alike (c : Catalog) (asked : String → Prop) (N : Site → Prop) (x y : Compile α) : Prop :=
  Follows (· = .depth) (Kept c asked N) x y (fun _ => Kept c asked N) (fun _ _ => True)

namespace Alike

variable {x y : Compile α} {f g : α → Compile β}

theorem pure (a : α) : Alike c asked N (Pure.pure a : Compile α) (Pure.pure a) :=
  Follows.pure (fun _ h => h)

theorem get : Alike c asked N (MonadState.get : Compile Compilation) MonadState.get :=
  Ensures.follows (fun _ h => h)

theorem bind (hx : Alike c asked N x y) (hf : ∀ a, Alike c asked N (f a) (g a)) :
    Alike c asked N (x >>= f) (y >>= g) := Follows.bind hx hf

theorem map (hx : Alike c asked N x y) (f : α → β) : Alike c asked N (f <$> x) (f <$> y) :=
  Follows.map hx (fun _ _ h => h)

theorem mapM {list : List α} (h : ∀ a ∈ list, Alike c asked N (f a) (g a)) :
    Alike c asked N (list.mapM f) (list.mapM g) := Follows.mapM h

theorem optionMapM {o : Option α} (h : ∀ a ∈ o, Alike c asked N (f a) (g a)) :
    Alike c asked N (o.mapM f) (o.mapM g) := Follows.optionMapM h

end Alike

theorem add_alike (r : Rule) : Alike c asked N (add r) (add r) :=
  Ensures.follows (Ensures.modifyGet (fun _ h => ⟨h.numbers, h.opened⟩))

theorem complete_alike (id : RuleId) (r : Rule) :
    Alike c asked N (complete id r) (complete id r) :=
  Ensures.follows (Ensures.modifyGet (fun _ h => ⟨h.numbers, h.opened⟩))

/-- Taking the number of a rule. -/
theorem take_follows (site : Site) :
    Follows (· = .depth) (Kept c asked N) (take site) (take site)
      (fun _ => Kept c asked (fun s => N s ∨ s = site)) (fun _ _ => True) := by
  refine Ensures.follows (Ensures.modifyGet (fun st h => ?_))
  have hnumbered : ∀ s, Numbered st s ∨ s = site →
      Numbered { st with numbers := (site, ⟨st.table.size + 1⟩) :: st.numbers } s := by
    intro s hs
    rw [Numbered, Keyed.get?]
    split
    · rfl
    · next hne => exact hs.resolve_right (fun h => hne h.symm)
  refine ⟨fun s hs => hnumbered s (hs.imp_left (h.numbers s)), fun s o ho => ?_⟩
  obtain ⟨hscope, hgot, hbase⟩ := h.opened s o ho
  exact ⟨hscope, hgot, hbase.imp_right (fun hb => hnumbered _ (.inl hb))⟩

/-! ## Opening grammars -/

/-- What is known of a grammar that was opened. -/
def OpenedAs (c : Catalog) (asked : String → Prop) (scope : String) (o : Opened)
    (st : Compilation) : Prop :=
  o.self.scopeName = scope ∧ o.Got c asked ∧ (o.base = o.self ∨ Numbered st o.base.site)

/-- **A grammar that was asked for is opened alike.** -/
theorem openGrammar_follows (hcov : c.Covers root asked visited)
    (hsame : ∀ s, asked s → c'.grammar? s = c.grammar? s) {scope : String} (hscope : asked scope)
    {base : Option Definition} (hbase : ∀ b ∈ base, c.Got asked b ∧ N b.site) :
    Follows (· = .depth) (Kept c asked N) (openGrammar c root scope base)
      (openGrammar c' root scope base)
      (fun o? st => Kept c asked N st ∧ ∀ o ∈ o?, OpenedAs c asked scope o st)
      (fun _ _ => True) := by
  unfold openGrammar
  rw [hsame scope hscope]
  split
  · next hroot =>
    refine Follows.pure (fun st h => ⟨h, fun o ho => ?_⟩)
    obtain rfl := Option.some.inj ho
    have hgot : c.Got asked root := ⟨hcov.begun, hcov.root⟩
    exact ⟨hroot.symm, ⟨hgot, hgot⟩, .inl rfl⟩
  refine Follows.bind (M := fun st st' => Kept c asked N st' ∧ st = st')
    (Ensures.follows (fun st h => ⟨h, rfl⟩)) (fun st => ?_)
  split
  · next o ho =>
    refine Follows.pure ?_
    rintro _ ⟨h, rfl⟩
    refine ⟨h, fun o' ho' => ?_⟩
    obtain rfl := Option.some.inj ho'
    exact h.opened scope o ho
  cases hd : c.grammar? scope with
  | none => exact Follows.pure (fun st h => ⟨h.1, fun o ho => absurd ho (Option.not_mem_none o)⟩)
  | some d =>
    obtain ⟨rfl, -⟩ := hcov.plain scope hscope d hd
    have hgot : c.Got asked d := ⟨hscope, hd⟩
    refine Ensures.follows (Ensures.bind (M := fun _ st => Kept c asked N st ∧
      OpenedAs c asked d.scopeName ⟨d, base.getD d⟩ st) ?_ (fun _ => Ensures.pure (fun st h => ?_)))
    · refine Ensures.modifyGet (fun st h => ?_)
      have hopened : OpenedAs c asked d.scopeName ⟨d, base.getD d⟩ st := by
        cases base with
        | none => exact ⟨rfl, ⟨hgot, hgot⟩, .inl rfl⟩
        | some b =>
          obtain ⟨hb, hnumbered⟩ := hbase b rfl
          exact ⟨rfl, ⟨hgot, hb⟩, .inr (h.1.numbers _ hnumbered)⟩
      refine ⟨⟨h.1.numbers, fun s o ho => ?_⟩, hopened⟩
      rw [Keyed.get?] at ho
      split at ho
      · next hs =>
        obtain rfl := Option.some.inj ho
        exact hs ▸ hopened
      · exact h.1.opened s o ho
    · refine ⟨h.1, fun o ho => ?_⟩
      obtain rfl := Option.some.inj ho
      exact h.2

/-- **What is done with a grammar that was opened is alike** if it is so with all numbers that are
taken by then. -/
theorem openGrammar_bind_alike (hcov : c.Covers root asked visited)
    (hsame : ∀ s, asked s → c'.grammar? s = c.grammar? s) {scope : String} (hscope : asked scope)
    {base : Option Definition} (hbase : ∀ b ∈ base, c.Got asked b ∧ N b.site)
    {f g : Option Opened → Compile α} (hnone : Alike c asked N (f none) (g none))
    (hsome : ∀ (N' : Site → Prop) (o : Opened), (∀ s, N s → N' s) → o.self.scopeName = scope →
      o.Got c asked → (o.base = o.self ∨ N' o.base.site) →
      Alike c asked N' (f (some o)) (g (some o))) :
    Alike c asked N (openGrammar c root scope base >>= f)
      (openGrammar c' root scope base >>= g) := by
  refine Follows.bind (openGrammar_follows hcov hsame hscope hbase) (fun o? => ?_)
  cases o? with
  | none => exact hnone.mono (fun _ h => h.1) (fun _ _ h => h) (fun _ _ h => h)
  | some o =>
    intro st hst
    obtain ⟨hkept, hopened⟩ := hst
    obtain ⟨hname, hgot, hbase⟩ := hopened o rfl
    exact (hsome (Numbered st) o hkept.numbers hname hgot hbase).mono (fun _ h => h)
      (fun _ _ h => h.weaken hkept.numbers) (fun _ _ h => h) st hkept.all

/-! ## What is compiled -/

/-- **A rule may be compiled** with a grammar in sight: it is visited, or refers to nothing but
grammars in sight. -/
def Ready (visited : Site → Prop) (self : Definition) (l : Located) : Prop :=
  self.Holds l ∧ visited l.site ∨
    ∃ names, self.Plain names ∧ l.rule.plain (·.isInner names) (·.isInner names) = true

/-- A reference may be followed with a grammar in sight. -/
def MayFollow (asked : String → Prop) (visited : Site → Prop) (self : Definition) :
    Reference → Prop
  | .base | .self => True
  | .named name => ∀ l ∈ Keyed.get? name self.locatedEntries, Ready visited self l
  | .grammar scope => asked scope
  | .namedIn scope name =>
    scope = self.scopeName ∧ ∀ l ∈ Keyed.get? name self.locatedEntries, Ready visited self l

/-- **The parts of a rule may be compiled** with a grammar in sight. -/
structure MayEnter (asked : String → Prop) (visited : Site → Prop) (d : Definition)
    (l : Located) : Prop where
  /-- It brings no named rules into sight. -/
  repository : l.rule.repository = []
  /-- The rules inside it. -/
  patterns : ∀ ps ∈ l.rule.patterns, ∀ l' ∈ locatePatterns l.site ps, Ready visited d l'
  /-- The rules that read groups on. -/
  captures : ∀ cs ∈ l.rule.captureLists, ∀ p ∈ cs, p.2.patterns.isSome →
    ∀ site, Ready visited d ⟨site, p.2⟩
  /-- Its reference. -/
  reference : ∀ text ∈ l.rule.reference, MayFollow asked visited d (.ofText text)

/-- What a rule for groups refers to may be followed. -/
theorem mayFollow_of_isInner {self : Definition} {names : List String} (hself : self.Plain names)
    {ref : Reference} (h : ref.isInner names = true) : MayFollow asked visited self ref := by
  cases ref with
  | base => trivial
  | self => trivial
  | named name =>
    intro l hl
    obtain ⟨-, hrule⟩ := get?_locateEntries hl
    have hname : name ∈ names := List.contains_iff_mem.1 h
    exact .inr ⟨names, hself, hself.inner _ (Keyed.mem_of_get? hrule) hname⟩
  | grammar scope => simp [Reference.isInner] at h
  | namedIn scope name => simp [Reference.isInner] at h

/-- What a rule that has been seen refers to may be followed. -/
theorem mayFollow_of_met (hroot : asked root.scopeName) {self : Definition}
    (hself : asked self.scopeName) {ref : Reference} (hplain : ref.isPlain self.scopeName = true)
    (h : ((Outlook.ofGrammar root self).follow ref).Met visited asked) :
    MayFollow asked visited self ref := by
  have hentry : ∀ name, (∀ l ∈ (Keyed.get? name self.locatedEntries).toList, visited l.site) →
      ∀ l ∈ Keyed.get? name self.locatedEntries, Ready visited self l :=
    fun name h l hl =>
      .inl ⟨Definition.holds_of_get?_locatedEntries hl, h l (Option.mem_toList.2 hl)⟩
  cases ref with
  | base => trivial
  | self => trivial
  | named name => exact hentry name h
  | grammar scope =>
    rw [Outlook.follow_grammar] at h
    cases hd : (Outlook.ofGrammar root self).grammar? scope with
    | none =>
      rw [hd] at h
      exact h
    | some d =>
      obtain ⟨rfl | rfl, rfl⟩ := Outlook.grammar?_ofGrammar hd
      · exact hself
      · exact hroot
  | namedIn scope name =>
    obtain rfl : scope = self.scopeName := beq_iff_eq.1 hplain
    rw [Outlook.follow_namedIn_self] at h
    exact ⟨rfl, hentry name h⟩

/-- The parts of a rule that may be compiled may be compiled. -/
theorem Ready.mayEnter (hcov : c.Covers root asked visited) {self : Definition}
    (hself : c.Got asked self) {l : Located} (h : Ready visited self l) :
    MayEnter asked visited self l := by
  obtain ⟨hl, hvisited⟩ | ⟨names, hplain, hrule⟩ := h
  · obtain ⟨-, names, hplain⟩ := hcov.plain _ hself.asked self hself.grammar
    have hseen := hcov.seen _ hself.asked self hself.grammar l hl hvisited
    have hrule := hplain.of_holds hl
    refine ⟨hrule.repository, fun ps hps l' hl' => ?_, fun cs hcs p hp hpatterns site => ?_,
      fun text htext => ?_⟩
    · exact .inl ⟨hl.inside hps hl', hseen.inside ps hps l' hl'⟩
    · exact .inr ⟨names, hplain, hrule.captures cs hcs p hp hpatterns⟩
    · exact mayFollow_of_met hcov.begun hself.asked (hrule.reference text htext)
        (hseen.reference text htext)
  · have hrule := RuleDefinition.Plain.of_plain hrule
    refine ⟨hrule.repository, fun ps hps l' hl' => ?_, fun cs hcs p hp hpatterns site => ?_,
      fun text htext => ?_⟩
    · obtain ⟨index, -, hl'⟩ := mem_locatePatterns hl'
      exact .inr ⟨names, hplain, hrule.patterns ps hps _ (List.mem_of_getElem? hl')⟩
    · exact .inr ⟨names, hplain, hrule.captures cs hcs p hp hpatterns⟩
    · exact mayFollow_of_isInner hplain (hrule.reference text htext)

/-- The parts of a grammar as a whole may be compiled. -/
theorem mayEnter_whole (hcov : c.Covers root asked visited) {self : Definition}
    (hself : c.Got asked self) : MayEnter asked visited self self.whole := by
  refine ⟨rfl, fun ps hps l hl => ?_, fun cs hcs => ?_, fun text htext => ?_⟩
  · obtain rfl := Option.some.inj hps
    refine .inl ⟨Definition.holds_of_mem_locatedPatterns hl, ?_⟩
    exact hcov.tops _ hself.asked self hself.grammar l (List.mem_append_left _ hl)
  · simp [Definition.whole, RuleDefinition.captureLists] at hcs
  · simp [Definition.whole] at htext

/-! ## Compiling the parts of a rule -/

/-- **Rules are compiled alike** with an opened grammar in sight: that grammar as a whole, rules
that have numbers, and once that grammar has its number, all rules that may be compiled. -/
def StepsAlike (c : Catalog) (asked : String → Prop) (visited : Site → Prop)
    (step step' : Step) : Prop :=
  ∀ (N : Site → Prop) (o : Opened) (l : Located), o.Got c asked →
    (o.base = o.self ∨ N o.base.site) →
    (l = o.self.whole ∨ N l.site ∨ N o.self.site ∧ Ready visited o.self l) →
    Alike c asked N (step o.sight l) (step' o.sight l)

/-- An opened grammar is in sight while rules of it are compiled. -/
structure InSight (c : Catalog) (asked : String → Prop) (N : Site → Prop) (o : Opened) : Prop where
  /-- It was asked for. -/
  got : o.Got c asked
  /-- Its base has a number. -/
  base : o.base = o.self ∨ N o.base.site
  /-- It has a number. -/
  self : N o.self.site

section Parts

variable {step step' : Step} {o : Opened}

theorem InSight.base_numbered (h : InSight c asked N o) : N o.base.site := by
  obtain hbase | hbase := h.base
  · exact hbase ▸ h.self
  · exact hbase

theorem InSight.alike (ho : InSight c asked N o) (hstep : StepsAlike c asked visited step step')
    {l : Located} (hl : Ready visited o.self l) :
    Alike c asked N (step o.sight l) (step' o.sight l) :=
  hstep N o l ho.got ho.base (.inr (.inr ⟨ho.self, hl⟩))

theorem captures_alike (hstep : StepsAlike c asked visited step step') (ho : InSight c asked N o)
    (site : Site) (list : CaptureList) {rules : List (Nat × RuleDefinition)}
    (hrules : ∀ p ∈ rules, p.2.patterns.isSome → ∀ site, Ready visited o.self ⟨site, p.2⟩) :
    Alike c asked N (captures step o.sight site list rules)
      (captures step' o.sight site list rules) := by
  have hadd : ∀ group (r : RuleDefinition) within, Alike c asked N (do
      let id ← add ⟨r.name.map .ofText, r.contentName.map .ofText, .capture within⟩
      return (group, id) : Compile (Nat × RuleId)) (do
      let id ← add ⟨r.name.map .ofText, r.contentName.map .ofText, .capture within⟩
      return (group, id)) :=
    fun group r within => Alike.bind (add_alike _) (fun _ => .pure _)
  unfold captures
  dsimp only
  split
  · exact Ensures.follows (fun _ _ => trivial)
  · refine Alike.bind (Alike.mapM (fun p hp => ?_)) (fun _ => .pure _)
    have hp := hrules p hp
    obtain ⟨group, r⟩ := p
    dsimp only
    split
    · next hpatterns =>
      exact Alike.bind ((ho.alike hstep (hp hpatterns _)).map some)
        (fun within => hadd group r within)
    · exact Alike.bind (.pure none) (fun within => hadd group r within)

theorem capturesOr_alike (hstep : StepsAlike c asked visited step step')
    (ho : InSight c asked N o) {l : Located} (hl : MayEnter asked visited o.self l)
    (list : CaptureList) {own : Option (List (Nat × RuleDefinition))}
    (hown : ∀ rules ∈ own, rules ∈ l.rule.captureLists) :
    Alike c asked N (capturesOr step o.sight l list own) (capturesOr step' o.sight l list own) := by
  unfold capturesOr
  split
  · next rules => exact captures_alike hstep ho _ _ (hl.captures rules (hown rules rfl))
  · refine captures_alike hstep ho _ _ (fun p hp => ?_)
    cases hcaptures : l.rule.captures with
    | none => simp [hcaptures] at hp
    | some rules =>
      rw [hcaptures, Option.getD_some] at hp
      refine hl.captures rules ?_ p hp
      exact List.mem_filterMap.2 ⟨some rules, by simp [hcaptures], rfl⟩

/-- **A reference is followed alike**: it leads to rules of the grammar in sight, to the grammar
that counts as its base, which has its number, or to a grammar that was asked for. -/
theorem reference_alike (hcov : c.Covers root asked visited)
    (hsame : ∀ s, asked s → c'.grammar? s = c.grammar? s)
    (hstep : StepsAlike c asked visited step step') (ho : InSight c asked N o) {ref : Reference}
    (href : MayFollow asked visited o.self ref) :
    Alike c asked N (reference c root step o.sight ref) (reference c' root step' o.sight ref) := by
  have hbase : Alike c asked N (step o.sight o.base.whole) (step' o.sight o.base.whole) :=
    hstep N o _ ho.got ho.base (.inr (.inl ho.base_numbered))
  have hself : Alike c asked N (step o.sight o.self.whole) (step' o.sight o.self.whole) :=
    hstep N o _ ho.got ho.base (.inl rfl)
  have hbases : ∀ b ∈ some o.base, c.Got asked b ∧ N b.site := by
    intro b hb
    obtain rfl := Option.some.inj hb
    exact ⟨ho.got.base, ho.base_numbered⟩
  cases ref with
  | base => exact Alike.map hbase some
  | self => exact Alike.map hself some
  | named name =>
    refine Alike.optionMapM (fun l hl => ?_)
    -- names that begin with a dollar sign may hide named rules of the grammar
    simp only [Opened.sight, Keyed.get?] at hl
    split at hl
    · obtain rfl := Option.some.inj hl
      exact hbase
    · split at hl
      · obtain rfl := Option.some.inj hl
        exact hself
      · exact ho.alike hstep (href l hl)
  | grammar scope =>
    exact openGrammar_bind_alike hcov hsame href hbases (.pure none) (fun N' o' _ _ hgot hbase =>
      Alike.map (hstep N' o' _ hgot hbase (.inl rfl)) some)
  | namedIn scope name =>
    obtain ⟨rfl, hentry⟩ := href
    refine openGrammar_bind_alike hcov hsame ho.got.self.asked hbases (.pure none)
      (fun N' o' hN' hscope hgot hbase => Alike.optionMapM (fun l hl => ?_))
    -- a grammar of that name is the one in sight, though it may be opened with another base
    have hself : o'.self = o.self := by
      have hgrammar := hgot.self.grammar
      rw [hscope, ho.got.self.grammar] at hgrammar
      exact (Option.some.inj hgrammar).symm
    rw [hself] at hl
    have hin : InSight c asked N' o' := ⟨hgot, hbase, hself ▸ hN' _ ho.self⟩
    exact hin.alike hstep (hself ▸ hentry l hl)

/-- A rule inside a rule is compiled alike if its reference may be followed, or if it has none and
may itself be compiled. -/
theorem inside_alike (hcov : c.Covers root asked visited)
    (hsame : ∀ s, asked s → c'.grammar? s = c.grammar? s)
    (hstep : StepsAlike c asked visited step step') (ho : InSight c asked N o)
    {rules : List Located} (hrules : ∀ l ∈ rules,
      (∀ text ∈ l.rule.reference, MayFollow asked visited o.self (.ofText text)) ∧
        (l.rule.reference = none → Ready visited o.self l)) :
    Alike c asked N (inside c root step o.sight rules) (inside c' root step' o.sight rules) := by
  unfold inside
  refine Alike.bind (Alike.mapM (fun l hl => ?_)) (fun _ => .pure _)
  obtain ⟨hreference, hready⟩ := hrules l hl
  unfold inner
  dsimp only
  split
  · next text htext =>
    exact Alike.bind (reference_alike hcov hsame hstep ho (hreference text htext))
      (fun _ => Alike.bind .get (fun _ => .pure _))
  · next hnone =>
    exact Alike.bind ((ho.alike hstep (hready hnone)).map some)
      (fun _ => Alike.bind .get (fun _ => .pure _))


/-- **What a rule does is compiled alike** if its parts may be compiled. -/
theorem body_alike (hcov : c.Covers root asked visited)
    (hsame : ∀ s, asked s → c'.grammar? s = c.grammar? s)
    (hstep : StepsAlike c asked visited step step') (ho : InSight c asked N o) {l : Located}
    (hl : MayEnter asked visited o.self l) (id : RuleId) :
    Alike c asked N (body c root step o.sight l id) (body c' root step' o.sight l id) := by
  have hinside : Alike c asked N
      (inside c root step o.sight (locatePatterns l.site (l.rule.patterns.getD [])))
      (inside c' root step' o.sight (locatePatterns l.site (l.rule.patterns.getD []))) := by
    refine inside_alike hcov hsame hstep ho (fun l' hl' => ?_)
    cases hps : l.rule.patterns with
    | none => simp [hps, locatePatterns] at hl'
    | some ps =>
      rw [hps, Option.getD_some] at hl'
      have hready := hl.patterns ps hps l' hl'
      exact ⟨(hready.mayEnter hcov ho.got.self).reference, fun _ => hready⟩
  have hlist : ∀ own ∈ [l.rule.captures, l.rule.openingCaptures, l.rule.closingCaptures,
      l.rule.continuingCaptures], ∀ rules ∈ own, rules ∈ l.rule.captureLists :=
    fun own hown rules hrules => List.mem_filterMap.2 ⟨own, hown, hrules⟩
  have hsight : o.sight.inside l = o.sight := by
    rw [Sight.inside, hl.repository]
    rfl
  unfold body
  dsimp only
  rw [hsight]
  split
  · exact Alike.bind (capturesOr_alike hstep ho hl _ (by simp)) (fun _ => .pure _)
  · refine Alike.bind (capturesOr_alike hstep ho hl _ (hlist _ (by simp))) (fun _ => ?_)
    split
    · refine Alike.bind (capturesOr_alike hstep ho hl _ (hlist _ (by simp))) (fun _ => ?_)
      exact Alike.bind hinside (fun _ => .pure _)
    · refine Alike.bind (capturesOr_alike hstep ho hl _ (hlist _ (by simp))) (fun _ => ?_)
      exact Alike.bind hinside (fun _ => .pure _)
  · split
    · next text _ htext =>
      refine Alike.bind (inside_alike hcov hsame hstep ho (fun l' hl' => ?_)) (fun _ => .pure _)
      obtain rfl := List.mem_singleton.1 hl'
      refine ⟨fun text' htext' => ?_, fun h => by simp at h⟩
      obtain rfl := Option.some.inj htext'
      exact hl.reference _ htext
    · exact Alike.bind hinside (fun _ => .pure _)

end Parts

/-! ## Compiling a rule -/

/-- **Rules are compiled alike**, and have numbers afterwards. The induction is on the depth; the
first compilation goes no deeper than the second. -/
theorem rule_follows (hcov : c.Covers root asked visited)
    (hsame : ∀ s, asked s → c'.grammar? s = c.grammar? s) {depth depth' : Nat}
    (hdepth : depth ≤ depth') {o : Opened} {l : Located} (hgot : o.Got c asked)
    (hbase : o.base = o.self ∨ N o.base.site)
    (hl : l = o.self.whole ∨ N l.site ∨ N o.self.site ∧ Ready visited o.self l) :
    Follows (· = .depth) (Kept c asked N) (rule c root depth o.sight l)
      (rule c' root depth' o.sight l) (fun _ => Kept c asked (fun s => N s ∨ s = l.site))
      (fun _ _ => True) := by
  induction depth generalizing depth' N o l with
  | zero => exact Follows.throw rfl
  | succ depth ih =>
    obtain ⟨depth', rfl⟩ := Nat.exists_eq_add_of_le' (Nat.le_trans (Nat.succ_pos depth) hdepth)
    have hstep : StepsAlike c asked visited (rule c root depth) (rule c' root depth') :=
      fun N o l hgot hbase hl =>
        (ih (Nat.le_of_succ_le_succ hdepth) hgot hbase hl).mono (fun _ h => h)
          (fun _ _ h => h.weaken (fun _ hs => .inl hs)) (fun _ _ h => h)
    rw [rule, rule]
    refine Follows.bind (M := fun st st' => Kept c asked N st' ∧ st = st')
      (Ensures.follows (fun st h => ⟨h, rfl⟩)) (fun st => ?_)
    split
    · next id hid =>
      refine Follows.pure ?_
      rintro _ ⟨h, rfl⟩
      refine ⟨fun s hs => ?_, h.opened⟩
      obtain hs | rfl := hs
      · exact h.numbers s hs
      · exact Option.isSome_iff_exists.2 ⟨id, hid⟩
    · next hfresh =>
      have hpre : ∀ st', Kept c asked N st' ∧ st = st' → Kept c asked N st' ∧ ¬ N l.site := by
        rintro _ ⟨h, rfl⟩
        refine ⟨h, fun hN => ?_⟩
        have := h.numbers _ hN
        simp [Numbered, hfresh] at this
      refine Follows.mono (Follows.assuming (fun hnumber => ?_)) hpre (fun _ _ h => h)
        (fun _ _ h => h)
      have hself : N o.self.site ∨ o.self.site = l.site := by
        obtain rfl | hN | ⟨hself, -⟩ := hl
        · exact .inr rfl
        · exact absurd hN hnumber
        · exact .inl hself
      have henter : MayEnter asked visited o.self l := by
        obtain rfl | hN | ⟨-, hready⟩ := hl
        · exact mayEnter_whole hcov hgot.self
        · exact absurd hN hnumber
        · exact hready.mayEnter hcov hgot.self
      refine Follows.bind (take_follows l.site) (fun id => ?_)
      exact Alike.bind (body_alike hcov hsame hstep ⟨hgot, hbase.imp_right .inl, hself⟩ henter id)
        (fun _ => Alike.bind (complete_alike id _) (fun _ => .pure id))

/-! ## Injections -/

section Injections

variable {step step' : Step}

theorem ownInjections_alike (hcov : c.Covers root asked visited)
    (hstep : StepsAlike c asked visited step step') (hroot : N root.site) :
    Alike c asked N (ownInjections step root) (ownInjections step' root) := by
  have hgot : c.Got asked root := ⟨hcov.begun, hcov.root⟩
  unfold ownInjections
  refine Alike.bind (Alike.mapM (fun p hp => ?_)) (fun _ => .pure _)
  have hmem : p.2 ∈ root.tops :=
    List.mem_append_right _ (List.mem_map_of_mem ((Order.perm_sort _ _).mem_iff.1 hp))
  obtain ⟨-, names, hplain⟩ := hcov.plain _ hcov.begun root hcov.root
  have hready : Ready visited root p.2 :=
    .inl ⟨hplain.holds_tops hmem, hcov.tops _ hcov.begun root hcov.root _ hmem⟩
  exact Alike.bind (hstep N ⟨root, root⟩ p.2 ⟨hgot, hgot⟩ (.inl rfl) (.inr (.inr ⟨hroot, hready⟩)))
    (fun _ => .pure _)

theorem injectedGrammar_alike (hcov : c.Covers root asked visited)
    (hsame : ∀ s, asked s → c'.grammar? s = c.grammar? s)
    (hstep : StepsAlike c asked visited step step') {scope : String} (hscope : asked scope) :
    Alike c asked N (injectedGrammar c root step scope)
      (injectedGrammar c' root step' scope) := by
  unfold injectedGrammar
  refine openGrammar_bind_alike hcov hsame hscope (fun b hb => absurd hb (Option.not_mem_none b))
    (.pure []) (fun N' o _ _ hgot hbase => ?_)
  dsimp only
  split
  · exact .pure _
  · exact Alike.bind (hstep N' o _ hgot hbase (.inl rfl)) (fun _ => .pure _)

theorem injections_alike (hcov : c.Covers root asked visited)
    (hsame : ∀ s, asked s → c'.grammar? s = c.grammar? s)
    (hinjections : c'.injectionsInto root.scopeName = c.injectionsInto root.scopeName)
    (hstep : StepsAlike c asked visited step step') (hroot : N root.site) :
    Alike c asked N (injections c root step) (injections c' root step') := by
  unfold injections
  rw [hinjections]
  refine Alike.bind (ownInjections_alike hcov hstep hroot) (fun own => ?_)
  refine Alike.bind (Alike.mapM (fun scope hscope => ?_)) (fun others => .pure _)
  exact injectedGrammar_alike hcov hsame hstep (hcov.injections scope hscope)

end Injections

end Compile

/-- **Compilation looks up only what was asked for**: a catalog that has the same grammars for the
scopes asked for, and the same grammars to be injected, yields the same compiled grammar. It has
to hold as many rules, since that bounds the depth of compilation. -/
theorem Ruleset.ofDefinition_eq_of_covers {c c' : Catalog} {root : Definition}
    {asked : String → Prop} {visited : Site → Prop} (hcov : c.Covers root asked visited)
    (hsame : ∀ s, asked s → c'.grammar? s = c.grammar? s)
    (hinjections : c'.injectionsInto root.scopeName = c.injectionsInto root.scopeName)
    (hsize : c.size ≤ c'.size) {rules : Ruleset} (h : Ruleset.ofDefinition c root = .ok rules) :
    Ruleset.ofDefinition c' root = .ok rules := by
  have hdepth : c.size + root.size + 1 ≤ c'.size + root.size + 1 := by omega
  have hgot : c.Got asked root := ⟨hcov.begun, hcov.root⟩
  have hkept : Compile.Kept c asked (fun _ => False) {} :=
    ⟨fun _ h => h.elim, fun s o h => by simp [Keyed.get?] at h⟩
  unfold Ruleset.ofDefinition at h ⊢
  dsimp only at h ⊢
  generalize hs : Compile.rule c root (c.size + root.size + 1) = step at h
  generalize hs' : Compile.rule c' root (c'.size + root.size + 1) = step'
  have hstep : Compile.StepsAlike c asked visited step step' := fun N o l hgot hbase hl =>
    hs ▸ hs' ▸ (Compile.rule_follows hcov hsame hdepth hgot hbase hl).mono (fun _ h => h)
      (fun _ _ h => h.weaken (fun _ hs => .inl hs)) (fun _ _ h => h)
  have hwhole : Follows (· = .depth) (Compile.Kept c asked (fun _ => False))
      (step (Opened.sight ⟨root, root⟩) root.whole) (step' (Opened.sight ⟨root, root⟩) root.whole)
      (fun _ => Compile.Kept c asked (fun s => False ∨ s = root.site)) (fun _ _ => True) :=
    hs ▸ hs' ▸ Compile.rule_follows hcov hsame hdepth ⟨hgot, hgot⟩ (.inl rfl) (.inl rfl)
  have hrun := Follows.bind hwhole (fun id => Follows.bind
    (Compile.injections_alike hcov hsame hinjections hstep (.inr rfl))
    (fun injections => Follows.pure (a := (id, injections)) (Q := fun _ _ => True)
      (fun _ _ => trivial)))
  split at h
  · next id injections st hst =>
    have hsame := hrun.run_eq hkept fun e st' herror =>
      absurd (hst.symm.trans herror) (by simp)
    rw [hsame.trans hst]
    exact h
  · simp at h

end Highlight.Grammar
