import Highlight.Proofs.Resolving

/-!
# References are lexical

A compiled grammar is lexical if each reference to a named rule, wherever it is written, leads to
the entry of the innermost repository around it that has the name. A grammar is compiled like that
if it keeps names inside, as do the grammars that it refers to. Then neither the order of its rules
nor what else refers to them makes a difference.

Without that condition it is not so. Two rules may refer to a third one that stands outside of them,
and that rule may refer to a name that only one of the two has in its repository. It is compiled
once, with what is in sight from the one that comes first.
-/

namespace Highlight.Grammar

/-! ## Compiling all of a grammar -/

namespace Compile

variable {catalog : Catalog} {root : Definition}

theorem injections_resolves {inventory : List Located} (hinv : Inventoried inventory catalog root)
    (hc : catalog.KeepsNames root) {underWay : RuleId → Prop} {depth : Nat} :
    Resolves inventory underWay depth catalog root (fun st => st.HasNumber root.site)
      (injections catalog root (rule catalog root depth)) (fun _ _ => True) := by
  have hstep : StepResolves inventory underWay depth catalog root (rule catalog root depth) :=
    ⟨fun s d l hl => (rule_resolves hinv hc depth underWay (fun _ h => False.elim h) hl).mono
      (fun _ h => ⟨h.1, .inl h.2⟩) (fun _ _ h => h), rule_numbered depth underWay⟩
  unfold injections
  refine Secures.bind (ownInjections_resolves hinv hc hstep) (fun own => ?_)
  refine Secures.bind (Secures.mapM_forall₂ (R := fun _ _ _ => True) (fun scope hscope => ?_)
    (fun _ _ _ _ _ h => h)) (fun others => .pure (fun _ h => ⟨h.1.1, trivial⟩))
  exact ((injectedGrammar_resolves hinv hc hscope).still (lasts_hasNumber root.site)
    (fun _ h => h.2)).mono (fun _ h => h) (fun _ _ h => ⟨⟨h.1.1, h.2⟩, trivial⟩)

end Compile

/-! ## Telling that names are kept inside -/

namespace Definition

/-- The references of a grammar, with the ways to the rules in which they stand. -/
def references (d : Definition) : List (List Step × Reference) :=
  d.all.flatMap (fun l => l.inner.filterMap (fun p => p.rule.refersTo?.map (l.site.steps, ·)))

/-- What stands at the end of a way is in one of some rules. -/
def standsIn (tops : List (List Step)) (way : List Step) : Bool := tops.any (·.isSuffixOf way)

/-- A reference leads into some rules. -/
def leadsInto (d : Definition) (tops : List (List Step)) (q : List Step × Reference) : Bool :=
  match q.2 with
  | .named name => (Keyed.get? name (d.namesIn q.1)).all (fun l => standsIn tops l.site.steps)
  | .self => tops.contains []
  | .base | .grammar _ | .namedIn .. => true

/-- **Names are kept inside**, judging by what is reached from each rule. From what is reached, no
reference leads further, and only what stands in the rule refers to its names. -/
def keepsNames (d : Definition) (reached : List Step → List (List Step)) : Bool :=
  d.all.all (fun l => !l.rule.holdsOnly || l.rule.repository.all (fun e =>
    e.1 != "$base" && e.1 != "$self" && standsIn (reached l.site.steps) l.site.steps &&
    d.references.all (fun q => !standsIn (reached l.site.steps) q.1 ||
      d.leadsInto (reached l.site.steps) q &&
        (q.2 != .named e.1 || l.site.steps.isSuffixOf q.1)))) &&
  d.references.all (fun q => q.2 != .named "$base" && q.2 != .named "$self")

variable {d : Definition} {way : List Step} {ref : Reference}

theorem Refers.mem_references (h : d.Refers way ref) : (way, ref) ∈ d.references := by
  obtain ⟨r, hr, p, hp, href⟩ := h
  refine List.mem_flatMap.2 ⟨_, mem_all_of_written? hr, List.mem_filterMap.2 ⟨p, hp, ?_⟩⟩
  rw [href]
  rfl

theorem standsIn_mono {tops : List (List Step)} {way way' : List Step}
    (h : standsIn tops way = true) (hway : way <:+ way') : standsIn tops way' = true := by
  obtain ⟨top, htop, hsuffix⟩ := List.any_eq_true.1 h
  exact List.any_eq_true.2
    ⟨top, htop, List.isSuffixOf_iff_suffix.2 ((List.isSuffixOf_iff_suffix.1 hsuffix).trans hway)⟩

/-- If no reference leads out of some rules, nothing else is reached from them. -/
theorem Reaches.standsIn {tops : List (List Step)} {outer : List Step}
    (hclosed : ∀ q ∈ d.references, Definition.standsIn tops q.1 = true → d.leadsInto tops q = true)
    (houter : Definition.standsIn tops outer = true) (h : d.Reaches outer way) :
    Definition.standsIn tops way = true := by
  induction h with
  | inside h => exact standsIn_mono houter h
  | named _ href hl hway ih =>
    have hleads := hclosed _ href.mem_references ih
    simp only [leadsInto, hl, Option.all_some] at hleads
    exact standsIn_mono hleads hway
  | self _ href ih =>
    have hleads := hclosed _ href.mem_references ih
    simp only [leadsInto, List.contains_eq_mem, decide_eq_true_eq] at hleads
    exact List.any_eq_true.2 ⟨[], hleads, List.isSuffixOf_iff_suffix.2 List.nil_suffix⟩

/-- **A grammar that is judged to keep names inside does.** -/
theorem KeepsNames.of_keepsNames {reached : List Step → List (List Step)}
    (h : d.keepsNames reached = true) : d.KeepsNames := by
  simp only [keepsNames, Bool.and_eq_true, List.all_eq_true, Bool.or_eq_true, Bool.not_eq_true',
    bne_iff_ne] at h
  obtain ⟨hown, hreferred⟩ := h
  have hnames : ∀ way, ∀ p ∈ d.ownNames way, ∃ l ∈ d.all, l.site.steps = way ∧
      l.rule.holdsOnly = true ∧ ∃ e ∈ l.rule.repository, e.1 = p.1 := by
    intro way p hp
    obtain ⟨r, hr, honly, hp⟩ := exists_written?_of_mem_ownNames hp
    obtain ⟨e, he, rfl⟩ := List.mem_map.1 hp
    exact ⟨_, mem_all_of_written? hr, rfl, honly, e, he, rfl⟩
  refine ⟨fun way p hp => ?_, fun way name href => ?_⟩
  · obtain ⟨l, hl, -, honly, e, he, hname⟩ := hnames way p hp
    have h := (hown l hl).resolve_left (by simp [honly]) e he
    exact hname ▸ h.1.1
  · have hmem := href.mem_references
    refine ⟨fun h => (hreferred _ hmem).1 (h ▸ rfl), fun h => (hreferred _ hmem).2 (h ▸ rfl),
      fun outer hown' hreach => ?_⟩
    obtain ⟨p, hp, rfl⟩ := List.mem_map.1 hown'
    obtain ⟨l, hl, rfl, honly, e, he, hname⟩ := hnames outer p hp
    obtain ⟨⟨-, hself⟩, hreferences⟩ := (hown l hl).resolve_left (by simp [honly]) e he
    have hstands := hreach.standsIn (fun q hq hin => ((hreferences q hq).resolve_left
      (by simp [hin])).1) hself
    have h := ((hreferences _ hmem).resolve_left (by simp [hstands])).2
    exact List.isSuffixOf_iff_suffix.1 (h.resolve_left (fun hne => hne (by rw [hname])))

end Definition

/-! ## Compiled grammars -/

namespace Ruleset

variable {catalog : Catalog} {root : Definition} {rules : Ruleset}

/-- **A compiled grammar is lexical**: wherever a rule is written that has a number, its references
lead to what their names mean there. -/
structure Lexical (catalog : Catalog) (root : Definition) (rules : Ruleset)
    (numbers : List (Site × RuleId)) : Prop where
  /-- The rules are what compiling ends with, and these are the numbers taken. -/
  run : ∃ opened, (Compile.everything catalog root).run {} =
    .ok (rules.root, rules.injections) ⟨rules.table, numbers, opened⟩
  /-- No rule that is written has two numbers. -/
  sites : (numbers.map (·.1)).Nodup
  /-- No number is that of two rules that are written. -/
  ids : (numbers.map (·.2)).Nodup
  /-- The references. -/
  references : ∀ d, catalog.Knows root d → ∀ way r, d.written? way = some r → ∀ id,
    (d.siteAt way, id) ∈ numbers → ∃ rule, rules.table.get? id = some rule ∧
      LeadsInside numbers rules.table (d.namesIn way) ⟨d.siteAt way, r⟩ rule.body

/-- **References are lexical** in all grammars that keep names inside, whatever compiles a rule
first. -/
theorem exists_lexical (hc : catalog.KeepsNames root) (h : ofDefinition catalog root = .ok rules) :
    ∃ numbers, rules.Lexical catalog root numbers := by
  have hinv := inventoried catalog root
  have hbegin : Compilation.Lexical catalog root (· = root.site) {} :=
    ⟨.inr rfl, fun scope o ho => by simp [Keyed.get?] at ho,
      fun d hd way r hr id rule hid => absurd hid List.not_mem_nil⟩
  have hfaces : Faces (root.all ++ catalog.all) catalog root (Opened.sight ⟨root, root⟩) root
      root.whole :=
    ⟨.top hinv (.inl rfl) (.inl rfl) [], rfl, rfl⟩
  have hwhole := Compile.rule_resolves hinv hc (catalog.size + root.size + 1) (fun _ => False)
    (fun site (h : site = root.site) => h) hfaces
  have hsecures : Compile.Secures (root.all ++ catalog.all) (fun _ => False)
      (catalog.size + root.size + 1)
      (fun st => st.Lexical catalog root (· = root.site) ∧
        (st.HasNumber root.site ∨ root.site = root.site))
      (Compile.everything catalog root) (fun _ st => st.Lexical catalog root (fun _ => False)) := by
    refine Compile.Secures.bind hwhole (fun id => ?_)
    exact Compile.Secures.bind ((Compile.injections_resolves hinv hc).mono
      (fun _ h => ⟨h.1, id, h.2⟩) (fun _ _ h => h)) (fun injections => .pure (fun _ h => h.1))
  have hrun := hsecures {} (fit_empty catalog root) ⟨hbegin, .inr rfl⟩
  rw [ofDefinition_eq] at h
  cases hx : (Compile.everything catalog root).run {} with
  | error e st =>
    rw [hx] at h
    cases h
  | ok p st =>
    rw [hx] at h hrun
    obtain rfl := Except.ok.inj h
    obtain ⟨-, horder, hlexical⟩ := hrun
    refine ⟨st.numbers, ⟨st.opened, hx⟩, horder.sites, horder.ids, fun d hd way r hr id hid => ?_⟩
    have htaken := horder.numbers _ hid
    cases hrule : st.table.get? id with
    | none => exact ((horder.holes id htaken).1 hrule).elim
    | some rule => exact ⟨rule, rfl, hlexical.references d hd way r hr id rule hid hrule⟩

/-- A grammar where two rules have names of their own, the one inside the other, and hide a name of
the grammar. It also refers to another grammar that refers back. -/
def nestedRoot : Definition where
  scopeName := "source.a"
  patterns := [
    { reference := some "#word" },
    { patterns := some [
        { reference := some "#pair" },
        { patterns := some [{ reference := some "#word" }, { reference := some "source.b#part" }]
          repository := [("word", { pattern := some "c" })] }]
      repository := [
        ("word", { pattern := some "b" }),
        ("pair", {
          opening := some "<"
          closing := some ">"
          patterns := some [{ reference := some "#word" }]
          captures := some [(0, { patterns := some [{ reference := some "#pair" }] })] })] },
    { reference := some "#list" }]
  repository := [
    ("word", { pattern := some "a" }),
    ("list", { patterns := some [{ reference := some "$self" }, { reference := some "#word" }] })]

/-- That grammar, and the other one. -/
def nested : Catalog where
  grammars := [
    ("source.a", nestedRoot),
    ("source.b", {
      scopeName := "source.b"
      repository := [
        ("part", {
          patterns := some [{ reference := some "$base" }, { reference := some "#word" }] }),
        ("word", { pattern := some "d" })] })]

/-- From the rules that have names, nothing is reached outside of them. -/
theorem keepsNames_nested : nested.KeepsNames nestedRoot := by
  have hknown : ∀ d, nested.Knows nestedRoot d → d ∈ nested.grammars.map (·.2) := by
    rintro d (rfl | ⟨h, -⟩)
    · exact List.mem_cons_self
    · exact List.mem_map_of_mem (Keyed.mem_of_get? h)
  have hkeys : ∀ d ∈ nested.grammars.map (·.2), (∀ l ∈ d.all, ∀ rules ∈ l.rule.captureLists,
      (rules.map (·.1)).Nodup) ∧ (d.injections.map (·.1)).Nodup := by
    decide +kernel
  have hkeeps : ∀ d ∈ nested.grammars.map (·.2), d.keepsNames (fun way => [way]) = true := by
    decide +kernel
  have hnamed : ∀ p ∈ nested.grammars, p.2.scopeName = p.1 := by decide
  refine ⟨fun scope d h => hnamed (scope, d) (Keyed.mem_of_get? h), fun d hd => ?_, fun d hd =>
    .of_keepsNames (hkeeps d (hknown d hd)), fun scope h => absurd h List.not_mem_nil⟩
  obtain ⟨hgroups, hselectors⟩ := hkeys d (hknown d hd)
  exact ⟨hgroups, hselectors⟩

/-- All references of the two grammars are lexical. Eleven rules have numbers, among them all four
that stand for a word. -/
theorem exists_lexical_nested : ∃ rules numbers, ofDefinition nested nestedRoot = .ok rules ∧
    numbers.length = 11 ∧ rules.Lexical nested nestedRoot numbers := by
  have hlength : (match (Compile.everything nested nestedRoot).run {} with
      | .ok _ st => some st.numbers.length
      | .error _ _ => none) = some 11 := by
    decide +kernel
  cases h : ofDefinition nested nestedRoot with
  | error e =>
    rw [ofDefinition_eq] at h
    split at h
    · cases h
    · next hx => simp [hx] at hlength
  | ok rules =>
    obtain ⟨numbers, hlexical⟩ := exists_lexical keepsNames_nested h
    obtain ⟨opened, hrun⟩ := hlexical.run
    rw [hrun] at hlength
    exact ⟨rules, numbers, rfl, Option.some.inj hlength, hlexical⟩

/-- Two rules that refer to a third one, which stands outside of them and refers to a name. The
first of them has that name in its repository. -/
def shared : Definition where
  scopeName := "text"
  patterns := [
    { patterns := some [{ reference := some "#x" }]
      repository := [("y", { pattern := some "a", name := some "inner" })] },
    { reference := some "#x" }]
  repository := [
    ("x", { patterns := some [{ reference := some "#y" }] }),
    ("y", { pattern := some "a", name := some "outer" })]

/-- **A rule that is shared** is compiled with what is in sight from the rule that comes first. What
the name means where it stands is never compiled. -/
theorem not_exists_lexical_shared : ∃ rules, ofDefinition {} shared = .ok rules ∧
    ¬ ∃ numbers, rules.Lexical {} shared numbers := by
  have hrules : ofDefinition {} shared = .ok (orEmpty (ofDefinition {} shared)) :=
    eq_ok_orEmpty (by decide +kernel)
  have hlisted : ((orEmpty (ofDefinition {} shared)).table.get? ⟨3⟩).map (·.body.listed) =
      some [⟨4⟩] := by
    decide +kernel
  refine ⟨_, hrules, ?_⟩
  generalize orEmpty (ofDefinition {} shared) = rules at hlisted
  rintro ⟨numbers, hlexical⟩
  obtain ⟨opened, hrun⟩ := hlexical.run
  have hnumbers : (match (Compile.everything {} shared).run {} with
      | .ok _ st => st.numbers
      | .error _ _ => []) = [(⟨"text", [.entry "y", .pattern 0]⟩, ⟨4⟩),
        (⟨"text", [.entry "x"]⟩, ⟨3⟩), (⟨"text", [.pattern 0]⟩, ⟨2⟩), (⟨"text", []⟩, ⟨1⟩)] := by
    decide +kernel
  rw [hrun] at hnumbers
  obtain rfl : numbers = _ := hnumbers
  -- the rule that is shared lists the number of the inner rule
  obtain ⟨rule, hrule, ids, hids, hleads⟩ := hlexical.references shared (.inl rfl) [.entry "x"] _
    rfl ⟨3⟩ (by decide)
  rw [hrule] at hlisted
  have hlisted : rule.body.listed = [⟨4⟩] := Option.some.inj hlisted
  rw [hlisted] at hids
  obtain ⟨id?, hlead, rfl⟩ : ∃ id?, Leads _ _ _ _ id? ∧ ids = [id?] := by
    cases hleads with
    | cons h hnil =>
      cases hnil
      exact ⟨_, h, rfl⟩
  have hid : id? = some ⟨4⟩ := by
    cases id? with
    | none => cases hids
    | some number => exact congrArg some (List.cons.inj hids).1.symm
  obtain ⟨l, hl, hmem⟩ := hlead.somewhere "y" rfl ⟨4⟩ hid
  obtain rfl := Option.some.inj hl
  exact absurd hmem (by decide)

end Ruleset

end Highlight.Grammar
