import Highlight.Proofs.Completing

/-!
# What a name means where it stands

A rule that only holds others may have a repository, and the names in it are meant for what stands
inside that rule. So the meaning of a name can be read off the grammar: it is the entry of the
innermost repository around the place where the name stands, the repository of the grammar being
the outermost.

Compilation does not look at the place. What is in sight is handed on along references, and each
rule that is gone through adds its names, whether or not it stands around the rule that is referred
to. And as a rule is compiled once only, what it refers to is settled by whoever comes to it first.

Both agree on the names that are **confined** at a place: the rules that have such a name in their
repository stand around the place, or else the place cannot be reached from inside them. What
compilation has in sight at a place gives the confined names their meaning. This is kept when it
goes inside a rule, and when it follows a name, since from a rule that reaches a place all is
reached that the place refers to. So a name that is confined where a reference leads is confined
where the reference stands, and means the same.
-/

namespace Highlight

theorem Keyed.get?_append {κ α : Type} [DecidableEq κ] (key : κ) (es fs : List (κ × α)) :
    get? key (es ++ fs) = (get? key es).or (get? key fs) := by
  induction es with
  | nil => rfl
  | cons e es ih =>
    rw [List.cons_append, get?, get?]
    split
    · rfl
    · exact ih

theorem Keyed.get?_eq_none_of_not_mem {κ α : Type} [DecidableEq κ] {key : κ}
    {es : List (κ × α)} (h : key ∉ es.map (·.1)) : get? key es = none := by
  cases hget : get? key es with
  | none => rfl
  | some a => exact absurd (List.mem_map_of_mem (mem_of_get? hget)) h

namespace Grammar

/-! ## Rules and the way to them -/

namespace RuleDefinition

/-- **A rule that only holds others** matches nothing and opens nothing. Only such a rule brings
its names into sight. -/
def holdsOnly (r : RuleDefinition) : Bool := (Compile.given r.pattern).isNone && r.opening.isNone

/-- What a rule refers to. -/
def refersTo? (r : RuleDefinition) : Option Reference := r.reference.map Reference.ofText

/-- The rule one step inside a rule. -/
def part? (r : RuleDefinition) : Step → Option RuleDefinition
  | .pattern index => r.patterns.bind (·[index]?)
  | .capture list group => (r.capturesFor list).bind (Keyed.get? group)
  | .entry name => Keyed.get? name r.repository
  | .injection _ => none

end RuleDefinition

/-- **The rules that are tried inside a rule.** One that refers to others, and has no list, is as
one whose list is that reference. -/
def Located.inner (l : Located) : List Located :=
  if (Compile.given l.rule.pattern).isSome then []
  else
    match l.rule.opening, l.rule.patterns, l.rule.reference with
    | none, none, some text => [⟨l.site, { reference := some text }⟩]
    | _, patterns, _ => locatePatterns l.site (patterns.getD [])

namespace Definition

/-- The site at the end of a way into a grammar, last step first. -/
def siteAt (d : Definition) (way : List Step) : Site := ⟨d.scopeName, way⟩

/-- **The rule that is written** at the end of a way into a grammar. No way leads to the grammar as
a whole. -/
def written? (d : Definition) : List Step → Option RuleDefinition
  | [] => some d.whole.rule
  | [step] => d.child? step
  | step :: way => (d.written? way).bind (·.part? step)

/-- The names that the rule at the end of a way brings into sight. -/
def ownNames (d : Definition) (way : List Step) : List (String × Located) :=
  match d.written? way with
  | none => []
  | some r => if r.holdsOnly then locateEntries (d.siteAt way) r.repository else []

/-- **What names mean** inside the rule at the end of a way: those of the innermost rule come first,
and those of the grammar last. -/
def namesIn (d : Definition) : List Step → List (String × Located)
  | [] => d.locatedEntries
  | step :: way => d.ownNames (step :: way) ++ d.namesIn way

/-- **A reference stands** inside the rule at the end of a way. -/
def Refers (d : Definition) (way : List Step) (ref : Reference) : Prop :=
  ∃ r, d.written? way = some r ∧
    ∃ p ∈ (⟨d.siteAt way, r⟩ : Located).inner, p.rule.refersTo? = some ref

/-- **What is reached** from inside a rule of a grammar: all that stands in it, in the rules that
are referred to from there, and so on. -/
inductive Reaches (d : Definition) (outer : List Step) : List Step → Prop
  /-- What stands in the rule. -/
  | inside {way : List Step} (h : outer <:+ way) : Reaches d outer way
  /-- What stands in the rule that a name means. -/
  | named {way way' : List Step} {name : String} {l : Located} (h : Reaches d outer way)
      (href : d.Refers way (.named name)) (hl : Keyed.get? name (d.namesIn way) = some l)
      (hway : l.site.steps <:+ way') : Reaches d outer way'
  /-- All of the grammar. -/
  | self {way way' : List Step} (h : Reaches d outer way) (href : d.Refers way .self) :
      Reaches d outer way'

/-- **A name is confined** at a place: all rules that have it in their repository, and from which
the place is reached, are around. -/
structure Confined (d : Definition) (around place : List Step) (name : String) : Prop where
  /-- It does not stand for the base. -/
  ne_base : name ≠ "$base"
  /-- It does not stand for the grammar. -/
  ne_self : name ≠ "$self"
  /-- The rules that have it. -/
  around : ∀ outer, name ∈ (d.ownNames outer).map (·.1) → d.Reaches outer place →
    outer <:+ around

/-- No two groups of a list have the same number, and no two injections the same selector. -/
structure DistinctKeys (d : Definition) : Prop where
  /-- The groups. -/
  groups : ∀ l ∈ d.all, ∀ rules ∈ l.rule.captureLists, (rules.map (·.1)).Nodup
  /-- The selectors. -/
  selectors : (d.injections.map (·.1)).Nodup

/-- **A grammar keeps names inside**: of what is reached from inside a rule that has a name in its
repository, only what stands in that rule refers to the name. -/
structure KeepsNames (d : Definition) : Prop where
  /-- No rule hides the grammar or its base. -/
  own : ∀ way, ∀ p ∈ d.ownNames way, p.1 ≠ "$base" ∧ p.1 ≠ "$self"
  /-- The names that are referred to are confined. -/
  confined : ∀ way name, d.Refers way (.named name) → d.Confined way way name

variable {d : Definition} {way way' : List Step} {r : RuleDefinition} {name : String}

/-! ## What is written -/

theorem written?_cons (step : Step) (h : way ≠ []) :
    d.written? (step :: way) = (d.written? way).bind (·.part? step) := by
  cases way with
  | nil => exact absurd rfl h
  | cons => rfl

/-- A rule of the list of a rule is written one step further on the way. -/
theorem written?_pattern (h : d.written? way = some r) {ps : List RuleDefinition}
    (hps : r.patterns = some ps) {index : Nat} {r' : RuleDefinition} (hr : ps[index]? = some r') :
    d.written? (.pattern index :: way) = some r' := by
  cases way with
  | nil =>
    obtain rfl := Option.some.inj h
    obtain rfl := Option.some.inj hps
    exact hr
  | cons step way =>
    rw [written?_cons _ (List.cons_ne_nil _ _), h, Option.bind_some, RuleDefinition.part?, hps]
    exact hr

/-- A rule for a group is written one step further on the way. -/
theorem written?_capture (h : d.written? way = some r) {list : CaptureList}
    {rules : List (Nat × RuleDefinition)} (hrules : r.capturesFor list = some rules) {group : Nat}
    {r' : RuleDefinition} (hr : Keyed.get? group rules = some r') :
    d.written? (.capture list group :: way) = some r' := by
  cases way with
  | nil =>
    obtain rfl := Option.some.inj h
    cases list <;> cases hrules
  | cons step way =>
    rw [written?_cons _ (List.cons_ne_nil _ _), h, Option.bind_some, RuleDefinition.part?, hrules]
    exact hr

/-- What stands in an inventory with the rules of a grammar has all that is written in it. -/
theorem Within.mem_of_written? {inventory : List Located} (hd : d.Within inventory)
    (hclosed : Closed inventory) (h : d.written? way = some r) :
    ⟨d.siteAt way, r⟩ ∈ inventory := by
  induction way generalizing r with
  | nil =>
    obtain rfl := Option.some.inj h
    exact hd.whole
  | cons step way ih =>
    cases way with
    | nil =>
      refine hd.parts _ ?_
      simp only [Definition.parts, List.mem_append]
      cases step with
      | pattern index =>
        exact .inl (.inl (List.mem_map.2 ⟨(r, index), List.mem_zipIdx_iff_getElem?.2 h, rfl⟩))
      | capture list group => cases h
      | entry name =>
        exact .inl (.inr (List.mem_map_of_mem (List.mem_map_of_mem (Keyed.mem_of_get? h))))
      | injection selector =>
        exact .inr (List.mem_map_of_mem (List.mem_map_of_mem (Keyed.mem_of_get? h)))
    | cons step' way =>
      rw [written?_cons _ (List.cons_ne_nil _ _)] at h
      obtain ⟨outer, houter, hr⟩ := Option.bind_eq_some_iff.1 h
      refine hclosed _ (ih houter) _ ?_
      cases step with
      | pattern index =>
        obtain ⟨ps, hps, hr⟩ := Option.bind_eq_some_iff.1 hr
        refine List.mem_append_left _ (List.mem_append_right _ ?_)
        refine List.mem_map.2 ⟨(r, index), ?_, rfl⟩
        rw [hps]
        exact List.mem_zipIdx_iff_getElem?.2 hr
      | capture list group =>
        obtain ⟨rules, hrules, hr⟩ := Option.bind_eq_some_iff.1 hr
        exact (Located.mem_parts_of_capturesFor _ hrules).2 _
          (List.mem_map_of_mem (Keyed.mem_of_get? hr))
      | entry name =>
        exact List.mem_append_right _
          (List.mem_map_of_mem (List.mem_map_of_mem (Keyed.mem_of_get? hr)))
      | injection selector => cases hr

/-- All that is written in a grammar stands in its inventory. -/
theorem mem_all_of_written? (h : d.written? way = some r) : ⟨d.siteAt way, r⟩ ∈ d.all :=
  (within_all (List.Subset.refl _)).mem_of_written? d.closed_all h

/-! ## What names mean -/

theorem exists_written?_of_mem_ownNames {p : String × Located} (h : p ∈ d.ownNames way) :
    ∃ r, d.written? way = some r ∧ r.holdsOnly = true ∧
      p ∈ locateEntries (d.siteAt way) r.repository := by
  rw [ownNames] at h
  cases hr : d.written? way with
  | none =>
    rw [hr] at h
    exact absurd h List.not_mem_nil
  | some r =>
    simp only [hr] at h
    split at h
    · next honly => exact ⟨r, rfl, honly, h⟩
    · exact absurd h List.not_mem_nil

theorem ownNames_eq_nil (h : d.written? way = some r) (hr : ¬ r.holdsOnly = true) :
    d.ownNames way = [] := by
  rw [ownNames, h]
  exact if_neg hr

theorem ownNames_eq (h : d.written? way = some r) (hr : r.holdsOnly = true) :
    d.ownNames way = locateEntries (d.siteAt way) r.repository := by
  rw [ownNames, h]
  exact if_pos hr

/-- The grammar as a whole brings no names into sight but its own. -/
theorem namesIn_eq (way : List Step) : d.namesIn way = d.ownNames way ++ d.namesIn way.tail := by
  cases way with
  | nil => rfl
  | cons step way => rfl

/-- With a place, all that stands in it is reached. -/
theorem Reaches.mono {outer : List Step} (h : d.Reaches outer way) (hway : way <:+ way') :
    d.Reaches outer way' := by
  cases h with
  | inside h => exact .inside (h.trans hway)
  | named h href hl hway' => exact .named h href hl (hway'.trans hway)
  | self h href => exact .self h href

/-- A name means the same further inside, if no rule between has it. -/
theorem get?_namesIn_eq (hway : way <:+ way')
    (hown : ∀ outer, outer <:+ way' → name ∈ (d.ownNames outer).map (·.1) → outer <:+ way) :
    Keyed.get? name (d.namesIn way') = Keyed.get? name (d.namesIn way) := by
  induction way' with
  | nil => rw [List.suffix_nil.1 hway]
  | cons step way' ih =>
    obtain rfl | hsuffix := List.suffix_cons_iff.1 hway
    · rfl
    · have hnot : name ∉ (d.ownNames (step :: way')).map (·.1) := fun hmem =>
        absurd ((hown _ List.suffix_rfl hmem).trans hsuffix).length_le (by simp)
      rw [namesIn, Keyed.get?_append, Keyed.get?_eq_none_of_not_mem hnot, Option.none_or,
        ih hsuffix (fun outer houter => hown outer (houter.trans (List.suffix_cons _ _)))]

/-- A confined name that a rule does not have is confined around that rule. -/
theorem Confined.tail {place : List Step} (h : d.Confined way place name)
    (hown : name ∉ (d.ownNames way).map (·.1)) : d.Confined way.tail place name := by
  refine ⟨h.ne_base, h.ne_self, fun outer hmem hreach => ?_⟩
  cases way with
  | nil => exact h.around outer hmem hreach
  | cons step way =>
    obtain rfl | hsuffix := List.suffix_cons_iff.1 (h.around outer hmem hreach)
    · exact absurd hmem hown
    · exact hsuffix

/-- What a name means is an entry that is written in some rule around, or in the grammar. -/
theorem exists_of_get?_namesIn {l : Located} (h : Keyed.get? name (d.namesIn way) = some l) :
    ∃ outer, outer <:+ way ∧ l.site = d.siteAt (.entry name :: outer) ∧
      d.written? (.entry name :: outer) = some l.rule := by
  induction way with
  | nil =>
    obtain ⟨hsite, hrule⟩ := get?_locateEntries h
    exact ⟨[], List.suffix_rfl, hsite, hrule⟩
  | cons step way ih =>
    rw [namesIn, Keyed.get?_append, Option.or_eq_some_iff] at h
    obtain hown | ⟨-, h⟩ := h
    · obtain ⟨r, hr, honly, -⟩ := exists_written?_of_mem_ownNames (Keyed.mem_of_get? hown)
      rw [ownNames_eq hr honly] at hown
      obtain ⟨hsite, hrule⟩ := get?_locateEntries hown
      refine ⟨step :: way, List.suffix_rfl, hsite, ?_⟩
      rw [written?_cons _ (List.cons_ne_nil _ _), hr]
      exact hrule
    · obtain ⟨outer, houter, hl⟩ := ih h
      exact ⟨outer, houter.trans (List.suffix_cons _ _), hl⟩

theorem KeepsNames.ownNames_ne (hd : d.KeepsNames) (way : List Step) :
    "$base" ∉ (d.ownNames way).map (·.1) ∧ "$self" ∉ (d.ownNames way).map (·.1) := by
  constructor <;> intro hmem <;> obtain ⟨p, hp, hname⟩ := List.mem_map.1 hmem
  · exact (hd.own way p hp).1 hname
  · exact (hd.own way p hp).2 hname

end Definition

/-! ## What is in sight -/

/-- **What is in sight gives the names their meaning** that they have inside the rule at the end of
a way, as far as they are confined at some place. -/
structure Sight.Sees (s : Sight) (d : Definition) (around place : List Step) : Prop where
  /-- The base. -/
  base : Keyed.get? "$base" s.entries = some s.base.whole
  /-- The grammar. -/
  self : Keyed.get? "$self" s.entries = some d.whole
  /-- The names. -/
  named : ∀ name, d.Confined around place name →
    Keyed.get? name s.entries = Keyed.get? name (d.namesIn around)

variable {s : Sight} {d : Definition} {way : List Step} {r : RuleDefinition}

/-- At the top of a grammar its own names are in sight. -/
theorem Opened.sees (o : Opened) (place : List Step) : o.sight.Sees o.self [] place where
  base := rfl
  self := rfl
  named := fun name h => by
    rw [sight, Keyed.get?, if_neg h.ne_base.symm, Keyed.get?, if_neg h.ne_self.symm]
    rfl

/-- What is in sight inside a rule is in sight at the rules directly in it. -/
theorem Sight.Sees.step (h : s.Sees d way way) (step : Step) : s.Sees d way (step :: way) :=
  ⟨h.base, h.self, fun name hname => h.named name
    ⟨hname.ne_base, hname.ne_self, fun outer hmem hreach =>
      hname.around outer hmem (hreach.mono (List.suffix_cons _ _))⟩⟩

/-- What is in sight inside a rule is in sight where all is reached that is reached there, if that
is in a rule around. -/
theorem Sight.Sees.follow (h : s.Sees d way way) {around place : List Step}
    (haround : around <:+ way)
    (hreach : ∀ outer, d.Reaches outer way → d.Reaches outer place) : s.Sees d around place := by
  refine ⟨h.base, h.self, fun name hname => ?_⟩
  have hconfined : d.Confined way way name := ⟨hname.ne_base, hname.ne_self,
    fun outer hmem houter => (hname.around outer hmem (hreach outer houter)).trans haround⟩
  rw [h.named name hconfined]
  exact Definition.get?_namesIn_eq haround
    (fun outer houter hmem => hname.around outer hmem (hreach outer (.inside houter)))

/-- Nothing comes into sight inside a rule that does not only hold others. -/
theorem Sight.Sees.stay (h : s.Sees d way.tail way) (hr : d.written? way = some r)
    (honly : ¬ r.holdsOnly = true) : s.Sees d way way := by
  have hown := Definition.ownNames_eq_nil hr honly
  refine ⟨h.base, h.self, fun name hname => ?_⟩
  rw [h.named name (hname.tail (by simp [hown])), d.namesIn_eq way, hown, List.nil_append]

/-- **Inside a rule** its names come into sight, in front of all others. -/
theorem Sight.Sees.inside (h : s.Sees d way.tail way) (hd : d.KeepsNames) {l : Located}
    (hsite : l.site = d.siteAt way) (hl : d.written? way = some l.rule)
    (honly : l.rule.holdsOnly = true) : (s.inside l).Sees d way way := by
  have hown := Definition.ownNames_eq hl honly
  have hentries : (s.inside l).entries = d.ownNames way ++ s.entries := by
    rw [Sight.inside, hown, hsite]
  obtain ⟨hbase, hself⟩ := hd.ownNames_ne way
  refine ⟨?_, ?_, fun name hname => ?_⟩
  · rw [hentries, Keyed.get?_append, Keyed.get?_eq_none_of_not_mem hbase]
    exact h.base
  · rw [hentries, Keyed.get?_append, Keyed.get?_eq_none_of_not_mem hself]
    exact h.self
  · rw [hentries, d.namesIn_eq way, Keyed.get?_append, Keyed.get?_append]
    by_cases hmem : name ∈ (d.ownNames way).map (·.1)
    · -- the rule has the name itself, so what is behind does not count
      obtain ⟨p, hp, rfl⟩ := List.mem_map.1 hmem
      cases hget : Keyed.get? p.1 (d.ownNames way) with
      | none => exact absurd hmem (Keyed.not_mem_keys_of_get?_eq_none hget)
      | some l => rfl
    · rw [h.named name (hname.tail hmem)]

end Grammar

end Highlight
