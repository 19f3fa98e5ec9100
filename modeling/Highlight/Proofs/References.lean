import Highlight.Proofs.Visibility

/-!
# References that lead right

A compiled rule lists the numbers of the rules that its references lead to. A reference leads right
if that is the number of the rule that its name means at the place where it stands. A state of a
compilation is lexical if this is so for all rules that are complete, in the grammars in which they
are written.

A rule may be compiled if what is in sight gives the names that are confined at the rule the meaning
that they have around it. From the rules inside such a rule the same can be said, and of the rules
that it refers to.
-/

namespace Highlight.Grammar

/-- **Compilation may come by a grammar**: it is the one compiled, or the catalog has it. -/
def Catalog.Knows (c : Catalog) (root d : Definition) : Prop :=
  d = root ∨ c.grammar? d.scopeName = some d ∧ d.scopeName ≠ root.scopeName

/-- The name of a grammar tells which one it is. -/
theorem Catalog.Knows.eq {c : Catalog} {root d d' : Definition} (h : c.Knows root d)
    (h' : c.Knows root d') (hname : d.scopeName = d'.scopeName) : d = d' := by
  obtain rfl | ⟨hd, hroot⟩ := h <;> obtain rfl | ⟨hd', hroot'⟩ := h'
  · rfl
  · exact absurd hname.symm hroot'
  · exact absurd hname hroot
  · rw [hname, hd'] at hd
    exact (Option.some.inj hd).symm

/-- **All grammars of a catalog keep names inside.** They are known by their names, and those that
are injected say where they apply. -/
structure Catalog.KeepsNames (c : Catalog) (root : Definition) : Prop where
  /-- The names of the grammars. -/
  named : ∀ scope d, c.grammar? scope = some d → d.scopeName = scope
  /-- The keys in them. -/
  keys : ∀ d, c.Knows root d → d.DistinctKeys
  /-- The names in them. -/
  inside : ∀ d, c.Knows root d → d.KeepsNames
  /-- The grammars that are injected. -/
  selectors : ∀ scope ∈ c.injectionsInto root.scopeName, ∀ d, c.grammar? scope = some d →
    d.injectionSelector.isSome

/-- The numbers of the rules inside. -/
def RuleBody.listed : RuleBody → List RuleId
  | .choice inside | .region _ _ _ inside | .block _ _ inside => inside.rules
  | .single _ | .capture _ => []

/-! ## Where references lead -/

section Leads

variable {numbers numbers' : List (Site × RuleId)} {table table' : RuleTable}
  {names : List (String × Located)} {p l : Located}

/-- **A reference leads right**, given what the names mean: to the number of the rule that the name
means, or nowhere, if the name means nothing, or a void rule. -/
structure Leads (numbers : List (Site × RuleId)) (table : RuleTable)
    (names : List (String × Located)) (p : Located) (id? : Option RuleId) : Prop where
  /-- To the rule. -/
  somewhere : ∀ name, p.rule.refersTo? = some (.named name) → ∀ id ∈ id?,
    ∃ l, Keyed.get? name names = some l ∧ (l.site, id) ∈ numbers
  /-- Nowhere. -/
  nowhere : ∀ name, p.rule.refersTo? = some (.named name) → id? = none →
    ∀ l ∈ Keyed.get? name names, ∃ id rule,
      (l.site, id) ∈ numbers ∧ table.get? id = some rule ∧ rule.isVoid = true

/-- **All references of a rule lead right.** The rule lists, in order, what those inside it lead
to. -/
def LeadsInside (numbers : List (Site × RuleId)) (table : RuleTable)
    (names : List (String × Located)) (l : Located) (b : RuleBody) : Prop :=
  ∃ ids : List (Option RuleId), b.listed = ids.filterMap id ∧
    List.Forall₂ (Leads numbers table names) l.inner ids

theorem Leads.mono {id? : Option RuleId} (h : Leads numbers table names p id?)
    (hnumbers : numbers ⊆ numbers')
    (htable : ∀ id rule, table.get? id = some rule → table'.get? id = some rule) :
    Leads numbers' table' names p id? where
  somewhere := fun name hname id hid => by
    obtain ⟨l, hl, hmem⟩ := h.somewhere name hname id hid
    exact ⟨l, hl, hnumbers hmem⟩
  nowhere := fun name hname hid l hl => by
    obtain ⟨id, rule, hmem, hrule, hvoid⟩ := h.nowhere name hname hid l hl
    exact ⟨id, rule, hnumbers hmem, htable id rule hrule, hvoid⟩

theorem LeadsInside.mono {b : RuleBody} (h : LeadsInside numbers table names l b)
    (hnumbers : numbers ⊆ numbers')
    (htable : ∀ id rule, table.get? id = some rule → table'.get? id = some rule) :
    LeadsInside numbers' table' names l b := by
  obtain ⟨ids, hids, hleads⟩ := h
  exact ⟨ids, hids, hleads.imp (fun _ _ hp => hp.mono hnumbers htable)⟩

end Leads

/-! ## What rules there are inside -/

section Inner

variable {l : Located}

theorem Located.inner_of_pattern {pattern : String}
    (h : Compile.given l.rule.pattern = some pattern) : l.inner = [] := by
  rw [inner, h]
  rfl

theorem Located.inner_of_opening {opening : String} (h : Compile.given l.rule.pattern = none)
    (hopening : l.rule.opening = some opening) :
    l.inner = locatePatterns l.site (l.rule.patterns.getD []) := by
  rw [inner, h, hopening]
  rfl

theorem Located.inner_of_reference (h : Compile.given l.rule.pattern = none)
    (hopening : l.rule.opening = none) (hpatterns : l.rule.patterns = none) {text : String}
    (htext : l.rule.reference = some text) :
    l.inner = [⟨l.site, { reference := some text }⟩] := by
  rw [inner, h, hopening, hpatterns, htext]
  rfl

theorem Located.inner_of_patterns (h : Compile.given l.rule.pattern = none)
    (hopening : l.rule.opening = none)
    (href : ∀ text, l.rule.patterns = none → l.rule.reference = some text → False) :
    l.inner = locatePatterns l.site (l.rule.patterns.getD []) := by
  rw [inner, h, hopening]
  cases hpatterns : l.rule.patterns with
  | some ps => rfl
  | none =>
    cases htext : l.rule.reference with
    | none => rfl
    | some text => exact (href text hpatterns htext).elim

end Inner

/-! ## States of a compilation -/

namespace Compilation

/-- The rule at a site has a number. -/
def HasNumber (st : Compilation) (site : Site) : Prop := ∃ id, (site, id) ∈ st.numbers

theorem Extends.hasNumber {st st' : Compilation} (h : st.Extends st') {site : Site}
    (hsite : st.HasNumber site) : st'.HasNumber site := by
  obtain ⟨id, hid⟩ := hsite
  exact ⟨id, h.numbers hid⟩

/-- **The references of the rules that are complete lead right**, and the bases of the grammars that
were opened have numbers, except for some that are going to take theirs. -/
structure Lexical (catalog : Catalog) (root : Definition) (pending : Site → Prop)
    (st : Compilation) : Prop where
  /-- The grammar that is compiled. -/
  begun : st.HasNumber root.site ∨ pending root.site
  /-- The grammars that were opened. -/
  opened : ∀ scope o, Keyed.get? scope st.opened = some o → o.self.scopeName = scope ∧
    catalog.Knows root o.self ∧ catalog.Knows root o.base ∧
      (st.HasNumber o.base.site ∨ pending o.base.site)
  /-- The references. -/
  references : ∀ d, catalog.Knows root d → ∀ way r, d.written? way = some r → ∀ id rule,
    (d.siteAt way, id) ∈ st.numbers → st.table.get? id = some rule →
    LeadsInside st.numbers st.table (d.namesIn way) ⟨d.siteAt way, r⟩ rule.body

variable {catalog : Catalog} {root : Definition} {pending pending' : Site → Prop}
  {st st' : Compilation}

theorem Lexical.mono (h : st.Lexical catalog root pending)
    (hpending : ∀ site, pending site → st.HasNumber site ∨ pending' site) :
    st.Lexical catalog root pending' where
  begun := h.begun.elim .inl (hpending _)
  opened := fun scope o ho => by
    obtain ⟨hscope, hself, hbase, hnumber⟩ := h.opened scope o ho
    exact ⟨hscope, hself, hbase, hnumber.elim .inl (hpending _)⟩
  references := h.references

/-- Going on without opening a grammar or completing a rule that is written. -/
theorem Lexical.goOn (h : st.Lexical catalog root pending) (hextends : st.Extends st')
    (hopened : st'.opened = st.opened)
    (hrules : ∀ site id rule, (site, id) ∈ st'.numbers → st'.table.get? id = some rule →
      (site, id) ∈ st.numbers ∧ st.table.get? id = some rule) :
    st'.Lexical catalog root pending where
  begun := h.begun.imp_left hextends.hasNumber
  opened := fun scope o ho => by
    obtain ⟨hscope, hself, hbase, hnumber⟩ := h.opened scope o (hopened ▸ ho)
    exact ⟨hscope, hself, hbase, hnumber.imp_left hextends.hasNumber⟩
  references := fun d hd way r hr id rule hid hrule => by
    obtain ⟨hid, hrule⟩ := hrules _ id rule hid hrule
    exact (h.references d hd way r hr id rule hid hrule).mono hextends.numbers hextends.rules

/-- Taking the number that all the bases without one have been waiting for. -/
theorem Lexical.take (h : st.Lexical catalog root pending) {site : Site}
    (hpending : ∀ site', pending site' → site' = site) (hextends : st.Extends (st.taking site)) :
    Lexical catalog root (fun _ => False) (st.taking site) := by
  refine (h.goOn hextends rfl (fun site' id rule hid hrule => ?_)).mono
    (fun site' h => .inl ⟨st.table.next, ?_⟩)
  · change (⟨st.table.rules.push none⟩ : RuleTable).get? id = some rule at hrule
    rw [RuleTable.get?_push] at hrule
    split at hrule
    · cases hrule
    · next hne =>
      refine ⟨(List.mem_cons.1 hid).resolve_left (fun heq => ?_), hrule⟩
      exact hne (congrArg Prod.snd heq)
  · rw [hpending site' h]
    exact List.mem_cons_self

/-- Completing the rule that is written at some place, if its references lead right. -/
theorem Lexical.complete (h : st.Lexical catalog root pending) {id : RuleId} {r : Rule}
    (htaken : st.table.Taken id) (hextends : st.Extends (st.completing id r))
    (hids : (st.numbers.map (·.2)).Nodup) {d : Definition} (hd : catalog.Knows root d)
    {way : List Step} {written : RuleDefinition} (hwritten : d.written? way = some written)
    (hid : (d.siteAt way, id) ∈ st.numbers)
    (hleads : LeadsInside st.numbers st.table (d.namesIn way) ⟨d.siteAt way, written⟩ r.body) :
    Lexical catalog root pending (st.completing id r) where
  begun := h.begun
  opened := h.opened
  references := fun d' hd' way' r' hr' id' rule hid' hrule => by
    rw [RuleTable.get?_set htaken] at hrule
    split at hrule
    · next heq =>
      subst heq
      obtain rfl := Option.some.inj hrule
      -- the number tells the site, and the site the rule
      have hsite : d'.siteAt way' = d.siteAt way :=
        congrArg Prod.fst (List.inj_on_of_nodup_map hids hid' hid rfl)
      obtain rfl := hd'.eq hd (congrArg Site.grammar hsite)
      obtain rfl : way' = way := congrArg Site.steps hsite
      obtain rfl := Option.some.inj (hr'.symm.trans hwritten)
      exact hleads.mono (List.Subset.refl _) hextends.rules
    · exact (h.references d' hd' way' r' hr' id' rule hid' hrule).mono (List.Subset.refl _)
        hextends.rules

end Compilation

/-! ## What is in sight where a rule is compiled -/

/-- **What compilation is given to look at**: what is in sight gives the names their meaning inside
a rule, as far as they are confined at some place. -/
structure Looks (inventory : List Located) (catalog : Catalog) (root : Definition) (s : Sight)
    (d : Definition) (around place : List Step) : Prop where
  /-- The grammar. -/
  known : catalog.Knows root d
  /-- Its base. -/
  base : catalog.Knows root s.base
  /-- All that is in sight stands in the inventory. -/
  within : s.Within inventory
  /-- The names. -/
  sees : s.Sees d around place

/-- **A rule that may be compiled** with what is in sight is written in the grammar that is in
sight, and the names confined there mean what they mean around it. -/
structure Faces (inventory : List Located) (catalog : Catalog) (root : Definition) (s : Sight)
    (d : Definition) (l : Located) : Prop where
  /-- What is in sight around it. -/
  looks : Looks inventory catalog root s d l.site.steps.tail l.site.steps
  /-- Its place. -/
  site : l.site = d.siteAt l.site.steps
  /-- It is written there. -/
  written : d.written? l.site.steps = some l.rule

section Faces

variable {inventory : List Located} {catalog : Catalog} {root d : Definition} {s : Sight}
  {way : List Step} {l : Located} {r : RuleDefinition}

theorem Compile.Inventoried.within (hinv : Compile.Inventoried inventory catalog root)
    (hd : catalog.Knows root d) : d.Within inventory := by
  obtain rfl | ⟨hd, -⟩ := hd
  · exact hinv.root
  · exact hinv.grammars _ d hd

theorem Faces.mem (h : Faces inventory catalog root s d l)
    (hinv : Compile.Inventoried inventory catalog root) : l ∈ inventory := by
  have hmem := (hinv.within h.looks.known).mem_of_written? hinv.closed h.written
  rwa [← h.site] at hmem

/-- What is written at a way may be compiled with what is in sight around it. -/
theorem Looks.faces {around : List Step} {step : Step}
    (h : Looks inventory catalog root s d around (step :: around))
    (hsite : l.site = d.siteAt (step :: around))
    (hwritten : d.written? (step :: around) = some l.rule) :
    Faces inventory catalog root s d l := by
  have hsteps : l.site.steps = step :: around := congrArg Site.steps hsite
  refine ⟨?_, ?_, ?_⟩ <;> rw [hsteps]
  · exact h
  · exact hsite
  · exact hwritten

/-- What is in sight inside a rule is in sight at the rules directly in it. -/
theorem Looks.step (h : Looks inventory catalog root s d way way) (step : Step) :
    Looks inventory catalog root s d way (step :: way) :=
  ⟨h.known, h.base, h.within, h.sees.step step⟩

/-- The grammar as a whole may be compiled where it is referred to. -/
theorem Looks.faces_whole (h : Looks inventory catalog root s d way way)
    (href : d.Refers way .self) : Faces inventory catalog root s d d.whole :=
  ⟨⟨h.known, h.base, h.within, h.sees.follow List.nil_suffix
    (fun _ hreach => .self hreach href)⟩, rfl, rfl⟩

/-- What a name means may be compiled where the name is referred to. -/
theorem Looks.faces_named (h : Looks inventory catalog root s d way way) {name : String}
    (href : d.Refers way (.named name)) (hl : Keyed.get? name (d.namesIn way) = some l) :
    Faces inventory catalog root s d l := by
  obtain ⟨outer, houter, hsite, hwritten⟩ := Definition.exists_of_get?_namesIn hl
  have hsteps : l.site.steps = .entry name :: outer := congrArg Site.steps hsite
  refine Looks.faces ⟨h.known, h.base, h.within, h.sees.follow houter
    (fun _ hreach => .named hreach href hl ?_)⟩ hsite hwritten
  exact hsteps ▸ List.suffix_rfl

/-- A rule of the list of a rule may be compiled. -/
theorem Looks.faces_pattern (h : Looks inventory catalog root s d way way)
    (hr : d.written? way = some r) (hl : l ∈ locatePatterns (d.siteAt way) (r.patterns.getD [])) :
    Faces inventory catalog root s d l := by
  obtain ⟨index, hsite, hrule⟩ := mem_locatePatterns hl
  cases hps : r.patterns with
  | none => simp [hps] at hrule
  | some ps =>
    rw [hps, Option.getD_some] at hrule
    exact (h.step _).faces hsite (Definition.written?_pattern hr hps hrule)

/-- A rule for a group of a rule may be compiled. -/
theorem Looks.faces_capture (h : Looks inventory catalog root s d way way)
    (hd : d.DistinctKeys) (hr : d.written? way = some r) {list : CaptureList}
    {rules : List (Nat × RuleDefinition)} (hrules : r.capturesFor list = some rules)
    {p : Nat × RuleDefinition} (hp : p ∈ rules) :
    Faces inventory catalog root s d ⟨(d.siteAt way).inside (.capture list p.1), p.2⟩ := by
  have hnodup := hd.groups _ (Definition.mem_all_of_written? hr) rules
    (Located.mem_parts_of_capturesFor ⟨d.siteAt way, r⟩ hrules).1
  exact (h.step _).faces rfl (Definition.written?_capture hr hrules (Keyed.get?_of_mem hnodup hp))

/-- **A grammar that was opened** may be looked at from its top. -/
theorem Looks.top (hinv : Compile.Inventoried inventory catalog root) {o : Opened}
    (hself : catalog.Knows root o.self) (hbase : catalog.Knows root o.base) (place : List Step) :
    Looks inventory catalog root o.sight o.self [] place where
  known := hself
  base := hbase
  within := Opened.Within.sight ⟨hinv.within hself, hinv.within hbase⟩
  sees := o.sees place

theorem Faces.stay (h : Faces inventory catalog root s d l) (honly : ¬ l.rule.holdsOnly = true) :
    Looks inventory catalog root s d l.site.steps l.site.steps :=
  ⟨h.looks.known, h.looks.base, h.looks.within, h.looks.sees.stay h.written honly⟩

theorem Faces.inside (h : Faces inventory catalog root s d l)
    (hinv : Compile.Inventoried inventory catalog root) (hd : d.KeepsNames)
    (honly : l.rule.holdsOnly = true) :
    Looks inventory catalog root (s.inside l) d l.site.steps l.site.steps where
  known := h.looks.known
  base := h.looks.base
  within := h.looks.within.inside hinv.closed (h.mem hinv)
  sees := h.looks.sees.inside hd h.site h.written honly

end Faces

end Highlight.Grammar
