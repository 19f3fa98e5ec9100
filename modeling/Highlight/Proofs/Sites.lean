import Highlight.Grammar.Ruleset
import Mathlib.Data.List.Basic

/-!
# Where rules stand

The walk that finds out what a grammar depends on tells rules apart by their sites, and so does
compilation. A site determines its rule once the grammar is known: `Definition.rule?` follows the
steps of the site. The rules that the walk can come by are those that stand outside captures, and
there are no more of them than the size of the grammar says; that is why the walk, whose depth is
bounded by the sizes of all grammars together, always comes to an end by itself.

The walk and compilation do not agree on all grammars. They agree on **plain** ones. There no rule
has a repository of its own, a named rule of another grammar is never referred to, and the rules
for groups refer only to whole grammars in sight, and to named rules that themselves refer to
nothing else. For the walk does not enter captures at all, has other named rules in sight than
compilation where a rule that matches has its own, and looks for a named rule of another grammar
only until that grammar is asked for as a whole.
-/

namespace Highlight.Grammar

/-! ## Plain grammars -/

namespace Reference

/-- A reference that never leaves a grammar and the one that all began with, if the named rules
with these names do not. -/
def isInner (names : List String) : Reference → Bool
  | .base | .self => true
  | .named name => names.contains name
  | .grammar _ | .namedIn .. => false

/-- A reference that a rule of a grammar may have outside captures: to a whole grammar, or to a
named rule of its own. -/
def isPlain (scope : String) : Reference → Bool
  | .namedIn other _ => other == scope
  | .base | .self | .named _ | .grammar _ => true

end Reference

namespace RuleDefinition

mutual

/-- A rule has no repository, and so have those inside it, its references are as `outside` says,
and those of the rules that read groups on are as `inside` says. -/
def plain (outside inside : Reference → Bool) : RuleDefinition → Bool
  | ⟨reference, _, _, _, c, _, oc, _, cc, _, kc, ps, rs, _⟩ =>
    rs.isEmpty && reference.all (fun text => outside (.ofText text)) &&
      plainPatterns? outside inside ps && plainCaptures? inside c && plainCaptures? inside oc &&
      plainCaptures? inside cc && plainCaptures? inside kc

/-- The rules of an optional list of captures that read groups on are plain. -/
def plainCaptures? (inside : Reference → Bool) : Option (List (Nat × RuleDefinition)) → Bool
  | none => true
  | some cs => plainCaptures inside cs

/-- The rules of a list of captures that read groups on are plain. -/
def plainCaptures (inside : Reference → Bool) : List (Nat × RuleDefinition) → Bool
  | [] => true
  | (_, r) :: rest =>
    (r.patterns.isNone || plain inside inside r) && plainCaptures inside rest

/-- The rules of an optional list are plain. -/
def plainPatterns? (outside inside : Reference → Bool) : Option (List RuleDefinition) → Bool
  | none => true
  | some ps => plainPatterns outside inside ps

/-- The rules of a list are plain. -/
def plainPatterns (outside inside : Reference → Bool) : List RuleDefinition → Bool
  | [] => true
  | r :: rest => plain outside inside r && plainPatterns outside inside rest

end

/-- The lists of captures that a rule gives. -/
def captureLists (r : RuleDefinition) : List (List (Nat × RuleDefinition)) :=
  [r.captures, r.openingCaptures, r.closingCaptures, r.continuingCaptures].filterMap id

variable {outside inside : Reference → Bool}

theorem plainCaptures_iff {cs : List (Nat × RuleDefinition)} :
    plainCaptures inside cs = true ↔
      ∀ p ∈ cs, p.2.patterns.isSome → p.2.plain inside inside = true := by
  induction cs with
  | nil => simp [plainCaptures]
  | cons p cs ih =>
    obtain ⟨group, r⟩ := p
    cases hr : r.patterns <;> simp [plainCaptures, hr, ih]

theorem plainPatterns_iff {ps : List RuleDefinition} :
    plainPatterns outside inside ps = true ↔ ∀ r ∈ ps, r.plain outside inside = true := by
  induction ps with
  | nil => simp [plainPatterns]
  | cons r ps ih => simp [plainPatterns, ih]

/-- What it is for a rule to be plain. -/
structure Plain (outside inside : Reference → Bool) (r : RuleDefinition) : Prop where
  /-- It has no repository. -/
  repository : r.repository = []
  /-- Its reference. -/
  reference : ∀ text ∈ r.reference, outside (.ofText text) = true
  /-- The rules inside it. -/
  patterns : ∀ ps ∈ r.patterns, ∀ r' ∈ ps, r'.plain outside inside = true
  /-- The rules for its groups. -/
  captures : ∀ cs ∈ r.captureLists, ∀ p ∈ cs, p.2.patterns.isSome →
    p.2.plain inside inside = true

theorem Plain.of_plain {r : RuleDefinition} (h : r.plain outside inside = true) :
    r.Plain outside inside := by
  have hcaptures : ∀ {o : Option (List (Nat × RuleDefinition))}, plainCaptures? inside o = true →
      ∀ cs, o = some cs → ∀ p ∈ cs, p.2.patterns.isSome → p.2.plain inside inside = true := by
    rintro o ho cs rfl
    exact plainCaptures_iff.1 ho
  obtain ⟨reference, _, _, _, c, _, oc, _, cc, _, kc, ps, rs, _⟩ := r
  simp only [plain, Bool.and_eq_true, List.isEmpty_iff] at h
  obtain ⟨⟨⟨⟨⟨⟨hrs, href⟩, hps⟩, hc⟩, hoc⟩, hcc⟩, hkc⟩ := h
  refine ⟨hrs, ?_, ?_, ?_⟩
  · rintro text rfl
    exact href
  · rintro ps rfl
    exact plainPatterns_iff.1 hps
  · intro cs hcs
    simp only [captureLists, List.mem_filterMap, id_eq, exists_eq_right, List.mem_cons,
      List.not_mem_nil, or_false] at hcs
    obtain h | h | h | h := hcs
    · exact hcaptures hc cs h.symm
    · exact hcaptures hoc cs h.symm
    · exact hcaptures hcc cs h.symm
    · exact hcaptures hkc cs h.symm

end RuleDefinition

namespace Definition

/-- The rules at the top of a grammar that are read wherever the grammar is referred to as a
whole. -/
def tops (d : Definition) : List Located := d.locatedPatterns ++ d.locatedInjections.map (·.2)

/-- **A grammar is plain**, given the names of the named rules that refer to nothing but whole
grammars in sight and each other. -/
def plainWith (d : Definition) (names : List String) : Bool :=
  (d.patterns ++ d.repository.map (·.2) ++ d.injections.map (·.2)).all
      (·.plain (·.isPlain d.scopeName) (·.isInner names)) &&
    d.repository.all (fun p => !names.contains p.1 ||
      p.2.plain (·.isInner names) (·.isInner names)) &&
    decide (d.injections.map (·.1)).Nodup

/-- What it is for a grammar to be plain. -/
structure Plain (d : Definition) (names : List String) : Prop where
  /-- The rules at its top. -/
  patterns : ∀ r ∈ d.patterns, r.plain (·.isPlain d.scopeName) (·.isInner names) = true
  /-- Its named rules. -/
  repository : ∀ p ∈ d.repository, p.2.plain (·.isPlain d.scopeName) (·.isInner names) = true
  /-- The rules that it injects into itself. -/
  injections : ∀ p ∈ d.injections, p.2.plain (·.isPlain d.scopeName) (·.isInner names) = true
  /-- The named rules that captures may refer to. -/
  inner : ∀ p ∈ d.repository, p.1 ∈ names → p.2.plain (·.isInner names) (·.isInner names) = true
  /-- No two injections have the same selector. -/
  selectors : (d.injections.map (·.1)).Nodup

theorem Plain.of_plainWith {d : Definition} {names : List String}
    (h : d.plainWith names = true) : d.Plain names := by
  simp only [plainWith, Bool.and_eq_true, List.all_eq_true, decide_eq_true_eq, Bool.or_eq_true,
    Bool.not_eq_true', List.contains_eq_mem, decide_eq_false_iff_not] at h
  obtain ⟨⟨hrules, hinner⟩, hselectors⟩ := h
  refine ⟨fun r hr => ?_, fun p hp => ?_, fun p hp => ?_, fun p hp hname => ?_, hselectors⟩
  · exact hrules r (by simp [hr])
  · refine hrules p.2 (List.mem_append_left _ (List.mem_append_right _ ?_))
    exact List.mem_map_of_mem hp
  · exact hrules p.2 (List.mem_append_right _ (List.mem_map_of_mem hp))
  · exact (hinner p hp).resolve_left (fun h => h hname)

end Definition

/-! ## From sites to rules -/

/-- The rule one step inside a rule, outside captures. -/
def RuleDefinition.child? (r : RuleDefinition) : Step → Option RuleDefinition
  | .pattern index => r.patterns.bind (·[index]?)
  | .capture .. | .entry _ | .injection _ => none

namespace Definition

/-- The rule one step inside a grammar. -/
def child? (d : Definition) : Step → Option RuleDefinition
  | .pattern index => d.patterns[index]?
  | .entry name => Keyed.get? name d.repository
  | .injection selector => Keyed.get? selector d.injections
  | .capture .. => none

/-- **The rule at the end of a way** into a grammar, last step first. -/
def rule? (d : Definition) : List Step → Option RuleDefinition
  | [] => none
  | step :: steps =>
    match steps with
    | [] => d.child? step
    | _ => (d.rule? steps).bind (·.child? step)

/-- What is true of the rules at the top of a grammar, and of the rules inside a rule if it is true
of that rule, is true of the rules at the end of all ways. -/
theorem forall_rule? {d : Definition} {P : List Step → RuleDefinition → Prop}
    (top : ∀ step r, d.child? step = some r → P [step] r)
    (inside : ∀ steps outer, P steps outer → ∀ ps ∈ outer.patterns, ∀ index r,
      ps[index]? = some r → P (.pattern index :: steps) r) :
    ∀ steps r, d.rule? steps = some r → P steps r := by
  intro steps
  induction steps with
  | nil => intro r h; simp [rule?] at h
  | cons step steps ih =>
    intro r h
    cases steps with
    | nil => exact top step r h
    | cons step' steps =>
      obtain ⟨outer, houter, hr⟩ := Option.bind_eq_some_iff.1 h
      cases step with
      | pattern index =>
        obtain ⟨ps, hps, hr⟩ := Option.bind_eq_some_iff.1 hr
        exact inside _ outer (ih outer houter) ps hps index r hr
      | capture list group => simp [RuleDefinition.child?] at hr
      | entry name => simp [RuleDefinition.child?] at hr
      | injection selector => simp [RuleDefinition.child?] at hr

/-- **A grammar holds a rule** at its site. -/
def Holds (d : Definition) (l : Located) : Prop :=
  l.site.grammar = d.scopeName ∧ d.rule? l.site.steps = some l.rule

variable {d : Definition}

/-- A grammar holds one rule at a site. -/
theorem Holds.eq_of_site_eq {l l' : Located} (h : d.Holds l) (h' : d.Holds l')
    (hsite : l.site = l'.site) : l = l' := by
  obtain ⟨site, rule⟩ := l
  obtain ⟨site', rule'⟩ := l'
  obtain rfl : site = site' := hsite
  obtain rfl : rule = rule' := Option.some.inj (h.2.symm.trans h'.2)
  rfl

end Definition

theorem mem_locatePatterns {site : Site} {ps : List RuleDefinition} {l : Located}
    (h : l ∈ locatePatterns site ps) :
    ∃ index, l.site = site.inside (.pattern index) ∧ ps[index]? = some l.rule := by
  obtain ⟨⟨r, index⟩, hr, rfl⟩ := List.mem_map.1 h
  exact ⟨index, rfl, List.mem_zipIdx_iff_getElem?.1 hr⟩

theorem get?_locateEntries {site : Site} {entries : List (String × RuleDefinition)} {name : String}
    {l : Located} (h : Keyed.get? name (locateEntries site entries) = some l) :
    l.site = site.inside (.entry name) ∧ Keyed.get? name entries = some l.rule := by
  induction entries with
  | nil => simp [locateEntries, Keyed.get?] at h
  | cons e entries ih =>
    simp only [locateEntries, List.map_cons, Keyed.get?] at h ih ⊢
    split at h
    · next hname =>
      obtain rfl := Option.some.inj h
      exact ⟨by rw [hname], by rw [if_pos hname]⟩
    · next hname =>
      rw [if_neg hname]
      exact ih h

namespace Definition

variable {d : Definition} {names : List String}

theorem holds_of_mem_locatedPatterns {l : Located} (h : l ∈ d.locatedPatterns) : d.Holds l := by
  obtain ⟨index, hsite, hrule⟩ := mem_locatePatterns h
  rw [Holds, hsite]
  exact ⟨rfl, hrule⟩

theorem holds_of_get?_locatedEntries {name : String} {l : Located}
    (h : Keyed.get? name d.locatedEntries = some l) : d.Holds l := by
  obtain ⟨hsite, hrule⟩ := get?_locateEntries h
  rw [Holds, hsite]
  exact ⟨rfl, hrule⟩

theorem holds_of_mem_locatedInjections (hd : (d.injections.map (·.1)).Nodup)
    {p : String × Located} (h : p ∈ d.locatedInjections) : d.Holds p.2 := by
  obtain ⟨⟨selector, r⟩, hr, rfl⟩ := List.mem_map.1 h
  exact ⟨rfl, Keyed.get?_of_mem hd hr⟩

/-- The grammar holds the rules at its top. -/
theorem Plain.holds_tops (hd : d.Plain names) {l : Located} (h : l ∈ d.tops) : d.Holds l := by
  obtain h | h := List.mem_append.1 h
  · exact holds_of_mem_locatedPatterns h
  · obtain ⟨p, hp, rfl⟩ := List.mem_map.1 h
    exact holds_of_mem_locatedInjections hd.selectors hp

/-- The grammar that holds a rule holds the rules inside it. -/
theorem Holds.inside {l l' : Located} (h : d.Holds l) {ps : List RuleDefinition}
    (hps : ps ∈ l.rule.patterns) (h' : l' ∈ locatePatterns l.site ps) : d.Holds l' := by
  obtain ⟨index, hsite, hrule⟩ := mem_locatePatterns h'
  obtain ⟨⟨scope, steps⟩, rule⟩ := l
  obtain ⟨hscope, hl⟩ := h
  rw [Holds, hsite]
  refine ⟨hscope, ?_⟩
  cases steps with
  | nil => simp [rule?] at hl
  | cons step steps =>
    have hpatterns : rule.patterns = some ps := hps
    have hl : d.rule? (step :: steps) = some rule := hl
    change (d.rule? (step :: steps)).bind (·.child? (.pattern index)) = some l'.rule
    rw [hl, Option.bind_some, RuleDefinition.child?, hpatterns]
    exact hrule

/-- All rules that a plain grammar holds are plain. -/
theorem Plain.of_holds (hd : d.Plain names) {l : Located} (h : d.Holds l) :
    l.rule.Plain (·.isPlain d.scopeName) (·.isInner names) := by
  refine .of_plain (forall_rule? (P := fun _ r =>
    r.plain (·.isPlain d.scopeName) (·.isInner names) = true) (fun step r h => ?_)
    (fun steps outer houter ps hps index r h => ?_) _ _ h.2)
  · cases step with
    | pattern index => exact hd.patterns r (List.mem_of_getElem? h)
    | capture list group => simp [child?] at h
    | entry name => exact hd.repository _ (Keyed.mem_of_get? h)
    | injection selector => exact hd.injections _ (Keyed.mem_of_get? h)
  · exact (RuleDefinition.Plain.of_plain houter).patterns ps hps r (List.mem_of_getElem? h)

end Definition

/-! ## How many rules there are -/

namespace RuleDefinition

mutual

/-- The rules inside the rule at a site, itself included, outside captures. -/
def held (site : Site) : RuleDefinition → List Located
  | ⟨reference, name, contentName, pattern, c, opening, oc, closing, cc, continuing, kc, ps, rs,
      closeLast⟩ =>
    ⟨site, ⟨reference, name, contentName, pattern, c, opening, oc, closing, cc, continuing, kc,
      ps, rs, closeLast⟩⟩ :: heldPatterns? site ps

/-- The rules inside the rules of an optional list. -/
def heldPatterns? (site : Site) : Option (List RuleDefinition) → List Located
  | none => []
  | some ps => heldPatterns site 0 ps

/-- The rules inside the rules of a list, from a place on. -/
def heldPatterns (site : Site) (index : Nat) : List RuleDefinition → List Located
  | [] => []
  | r :: rest => held (site.inside (.pattern index)) r ++ heldPatterns site (index + 1) rest

end

mutual

theorem length_held_le (site : Site) (r : RuleDefinition) : (held site r).length ≤ r.size := by
  obtain ⟨_, _, _, _, _, _, _, _, _, _, _, ps, _, _⟩ := r
  have := length_heldPatterns?_le site ps
  simp only [held, size, List.length_cons]
  omega

theorem length_heldPatterns?_le (site : Site) (ps : Option (List RuleDefinition)) :
    (heldPatterns? site ps).length ≤ sizePatterns? ps := by
  cases ps with
  | none => exact Nat.le_refl 0
  | some ps => exact length_heldPatterns_le site 0 ps

theorem length_heldPatterns_le (site : Site) (index : Nat) (ps : List RuleDefinition) :
    (heldPatterns site index ps).length ≤ sizePatterns ps := by
  cases ps with
  | nil => exact Nat.le_refl 0
  | cons r ps =>
    have := length_held_le (site.inside (.pattern index)) r
    have := length_heldPatterns_le site (index + 1) ps
    simp only [heldPatterns, sizePatterns, List.length_append]
    omega

end

theorem self_mem_held (site : Site) (r : RuleDefinition) : ⟨site, r⟩ ∈ held site r := by
  obtain ⟨_, _, _, _, _, _, _, _, _, _, _, _, _, _⟩ := r
  exact List.mem_cons_self

theorem mem_heldPatterns_of_getElem? (site : Site) {ps : List RuleDefinition} {i : Nat}
    {r : RuleDefinition} (h : ps[i]? = some r) (index : Nat) :
    ⟨site.inside (.pattern (index + i)), r⟩ ∈ heldPatterns site index ps := by
  induction ps generalizing i index with
  | nil => simp at h
  | cons p ps ih =>
    cases i with
    | zero =>
      obtain rfl : p = r := by simpa using h
      exact List.mem_append_left _ (self_mem_held _ _)
    | succ i =>
      have hrest := ih (by simpa using h) (index + 1)
      rw [Nat.add_right_comm, Nat.add_assoc] at hrest
      exact List.mem_append_right _ hrest

mutual

/-- With a rule, the rules inside it are held. -/
theorem mem_held_of_inside (site : Site) (r : RuleDefinition) {l l' : Located}
    (hl : l ∈ held site r) {ps : List RuleDefinition} (hps : ps ∈ l.rule.patterns)
    (h' : l' ∈ locatePatterns l.site ps) : l' ∈ held site r := by
  obtain ⟨_, _, _, _, _, _, _, _, _, _, _, qs, _, _⟩ := r
  obtain rfl | hl := List.mem_cons.1 hl
  · obtain rfl : qs = some ps := hps
    obtain ⟨index, hsite, hrule⟩ := mem_locatePatterns h'
    have hmem := mem_heldPatterns_of_getElem? site hrule 0
    rw [Nat.zero_add] at hmem
    obtain ⟨_, _⟩ := l'
    obtain rfl := hsite
    exact List.mem_cons_of_mem _ hmem
  · exact List.mem_cons_of_mem _ (mem_heldPatterns?_of_inside site qs hl hps h')

theorem mem_heldPatterns?_of_inside (site : Site) (qs : Option (List RuleDefinition))
    {l l' : Located} (hl : l ∈ heldPatterns? site qs) {ps : List RuleDefinition}
    (hps : ps ∈ l.rule.patterns) (h' : l' ∈ locatePatterns l.site ps) :
    l' ∈ heldPatterns? site qs := by
  cases qs with
  | none => simp [heldPatterns?] at hl
  | some qs => exact mem_heldPatterns_of_inside site 0 qs hl hps h'

theorem mem_heldPatterns_of_inside (site : Site) (index : Nat) (qs : List RuleDefinition)
    {l l' : Located} (hl : l ∈ heldPatterns site index qs) {ps : List RuleDefinition}
    (hps : ps ∈ l.rule.patterns) (h' : l' ∈ locatePatterns l.site ps) :
    l' ∈ heldPatterns site index qs := by
  cases qs with
  | nil => simp [heldPatterns] at hl
  | cons q qs =>
    obtain hl | hl := List.mem_append.1 hl
    · exact List.mem_append_left _ (mem_held_of_inside _ q hl hps h')
    · exact List.mem_append_right _ (mem_heldPatterns_of_inside site (index + 1) qs hl hps h')

end

end RuleDefinition

namespace Definition

/-- The rules inside named ones, outside captures. -/
def heldNamed (d : Definition) (step : String → Step) (rs : List (String × RuleDefinition)) :
    List Located :=
  rs.flatMap (fun p => p.2.held (d.site.inside (step p.1)))

/-- **The rules of a grammar**, outside captures. -/
def held (d : Definition) : List Located :=
  RuleDefinition.heldPatterns d.site 0 d.patterns ++ d.heldNamed .entry d.repository ++
    d.heldNamed .injection d.injections

theorem length_heldNamed_le (d : Definition) (step : String → Step)
    (rs : List (String × RuleDefinition)) :
    (d.heldNamed step rs).length ≤ RuleDefinition.sizeNamed rs := by
  induction rs with
  | nil => exact Nat.le_refl 0
  | cons p rs ih =>
    have := RuleDefinition.length_held_le (d.site.inside (step p.1)) p.2
    simp only [heldNamed, List.flatMap_cons, List.length_append, RuleDefinition.sizeNamed] at ih ⊢
    omega

/-- There are no more rules than the size of the grammar says. -/
theorem length_held_le (d : Definition) : d.held.length ≤ d.size := by
  have := RuleDefinition.length_heldPatterns_le d.site 0 d.patterns
  have := d.length_heldNamed_le .entry d.repository
  have := d.length_heldNamed_le .injection d.injections
  simp only [held, size, List.length_append]
  omega

theorem mem_heldNamed_of_inside {d : Definition} {step : String → Step}
    {rs : List (String × RuleDefinition)} {l l' : Located} (hl : l ∈ d.heldNamed step rs)
    {ps : List RuleDefinition} (hps : ps ∈ l.rule.patterns)
    (h' : l' ∈ locatePatterns l.site ps) : l' ∈ d.heldNamed step rs := by
  obtain ⟨p, hp, hl⟩ := List.mem_flatMap.1 hl
  exact List.mem_flatMap.2 ⟨p, hp, RuleDefinition.mem_held_of_inside _ _ hl hps h'⟩

theorem mem_held_of_inside {d : Definition} {l l' : Located} (hl : l ∈ d.held)
    {ps : List RuleDefinition} (hps : ps ∈ l.rule.patterns)
    (h' : l' ∈ locatePatterns l.site ps) : l' ∈ d.held := by
  simp only [held, List.mem_append] at hl ⊢
  exact hl.imp (Or.imp
    (fun hl => RuleDefinition.mem_heldPatterns_of_inside _ _ _ hl hps h')
    (fun hl => mem_heldNamed_of_inside hl hps h')) (fun hl => mem_heldNamed_of_inside hl hps h')

/-- A rule that a grammar holds at a site is one of its rules. -/
theorem Holds.mem_held {d : Definition} {l : Located} (h : d.Holds l) : l ∈ d.held := by
  have hnamed : ∀ (make : String → Step) rs name r, Keyed.get? name rs = some r →
      ⟨d.site.inside (make name), r⟩ ∈ d.heldNamed make rs :=
    fun make rs name r h => List.mem_flatMap.2
      ⟨(name, r), Keyed.mem_of_get? h, RuleDefinition.self_mem_held _ _⟩
  obtain ⟨⟨scope, steps⟩, rule⟩ := l
  obtain ⟨hscope, hrule⟩ := h
  obtain rfl : scope = d.scopeName := hscope
  refine forall_rule? (P := fun steps r => ⟨⟨d.scopeName, steps⟩, r⟩ ∈ d.held)
    (fun step r h => ?_) (fun steps outer houter ps hps index r h => ?_) steps rule hrule
  · simp only [held, List.mem_append]
    cases step with
    | pattern index =>
      have hmem := RuleDefinition.mem_heldPatterns_of_getElem? d.site h 0
      rw [Nat.zero_add] at hmem
      exact .inl (.inl hmem)
    | capture list group => simp [child?] at h
    | entry name => exact .inl (.inr (hnamed .entry _ name r h))
    | injection selector => exact .inr (hnamed .injection _ selector r h)
  · refine mem_held_of_inside houter hps (List.mem_map.2 ⟨(r, index), ?_, rfl⟩)
    exact List.mem_zipIdx_iff_getElem?.2 h

end Definition

/-- The sites of the rules of all grammars of a catalog, outside captures. -/
def Catalog.sites (c : Catalog) : List Site :=
  c.grammars.flatMap (fun p => p.2.held.map (·.site))

theorem Catalog.length_sites_le (c : Catalog) : c.sites.length ≤ c.size := by
  rw [sites, size]
  induction c.grammars with
  | nil => exact Nat.le_refl 0
  | cons p grammars ih =>
    have := p.2.length_held_le
    rw [List.flatMap_cons, List.length_append, List.length_map, Keyed.total]
    omega

theorem Catalog.mem_sites {c : Catalog} {d : Definition} {scope : String}
    (hd : c.grammar? scope = some d) {l : Located} (hl : d.Holds l) : l.site ∈ c.sites :=
  List.mem_flatMap.2 ⟨(scope, d), Keyed.mem_of_get? hd, List.mem_map_of_mem hl.mem_held⟩

end Highlight.Grammar
