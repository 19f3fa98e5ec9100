import Highlight.Grammar.Dependencies
import Highlight.Proofs.Inventory
import Highlight.Proofs.Sites

/-!
# What a walk finds

A walk through the rules of plain grammars leaves nothing out. Whatever rule it has come by, it
has come by the rules inside it too, and by those that its reference leads to, unless that leaves
the two grammars in sight, and then the grammar is noted as needed. A rule of which this is so has
been **seen**.

The walk goes in depth and marks a rule before it goes on inside it, so that a rule that is marked
has not been seen yet while the walk is still inside it. Hence the statement about a part of the
walk is only about the rules that were marked in it: all of these have been seen when it is over.
The depth suffices, as each step inside marks one more of the rules of the catalog.
-/

namespace Highlight.Grammar

/-! ## Rules that have been seen -/

/-- What a reference leads to is met: the rules are visited, or the grammar is asked for. -/
def Target.Met (visited : Site → Prop) (asked : String → Prop) : Target → Prop
  | rules _ located => ∀ l ∈ located, visited l.site
  | need n => asked n.scope

/-- **A rule of a grammar has been seen**: the rules inside it are visited, and what its reference
leads to is met. -/
structure Seen (base d : Definition) (visited : Site → Prop) (asked : String → Prop)
    (l : Located) : Prop where
  /-- The rules inside it. -/
  inside : ∀ ps ∈ l.rule.patterns, ∀ l' ∈ locatePatterns l.site ps, visited l'.site
  /-- Its reference. -/
  reference : ∀ text ∈ l.rule.reference,
    ((Outlook.ofGrammar base d).follow (.ofText text)).Met visited asked

theorem Seen.mono {base d : Definition} {visited visited' : Site → Prop}
    {asked asked' : String → Prop} {l : Located} (h : Seen base d visited asked l)
    (hvisited : ∀ s, visited s → visited' s) (hasked : ∀ s, asked s → asked' s) :
    Seen base d visited' asked' l := by
  refine ⟨fun ps hps l' hl' => hvisited _ (h.inside ps hps l' hl'), fun text htext => ?_⟩
  have hmet := h.reference text htext
  cases hfollow : (Outlook.ofGrammar base d).follow (.ofText text) with
  | rules o rules =>
    rw [hfollow] at hmet
    exact fun l' hl' => hvisited _ (hmet l' hl')
  | need n =>
    rw [hfollow] at hmet
    exact hasked _ hmet

/-! ## Where references lead -/

/-- The named rules in sight are the same inside a rule that has none. -/
theorem Outlook.inside_eq {o : Outlook} {l : Located} (h : l.rule.repository = []) :
    o.inside l = o := by
  rw [inside, h]
  rfl

/-- The grammars in sight are the one the rules belong to and the one all began with. -/
theorem Outlook.grammar?_ofGrammar {base self d : Definition} {scope : String}
    (h : (ofGrammar base self).grammar? scope = some d) :
    (d = self ∨ d = base) ∧ d.scopeName = scope := by
  unfold grammar? at h
  split at h
  · next hscope =>
    obtain rfl := Option.some.inj h
    exact ⟨.inl rfl, hscope.symm⟩
  · split at h
    · next hscope =>
      obtain rfl := Option.some.inj h
      exact ⟨.inr rfl, hscope.symm⟩
    · simp at h

theorem Outlook.follow_grammar (o : Outlook) (scope : String) :
    o.follow (.grammar scope) = match o.grammar? scope with
      | some d => { o with self := d }.all
      | none => .need (.whole scope) := rfl

/-- A named rule of the grammar that a reference stands in is the one in sight. -/
theorem Outlook.follow_namedIn_self (base self : Definition) (name : String) :
    (ofGrammar base self).follow (.namedIn self.scopeName name) =
      (ofGrammar base self).follow (.named name) := by
  have hgrammar : (ofGrammar base self).grammar? self.scopeName = some self := if_pos rfl
  have hfollow : (ofGrammar base self).follow (.namedIn self.scopeName name) =
      match (ofGrammar base self).grammar? self.scopeName with
      | some d => { ofGrammar base self with self := d }.entry name
      | none => .need (.entry self.scopeName name) := rfl
  rw [hfollow, hgrammar]
  rfl

/-- **The references of a plain grammar** lead to rules that it holds, or that the grammar all began
with holds, or to a whole grammar that is needed. -/
theorem Outlook.follow_cases {base self : Definition} {namesBase namesSelf : List String}
    (hbase : base.Plain namesBase) (hself : self.Plain namesSelf) {ref : Reference}
    (href : ref.isPlain self.scopeName = true) :
    (∃ g rules, (g = self ∨ g = base) ∧ (∀ l ∈ rules, g.Holds l) ∧
      (ofGrammar base self).follow ref = .rules (.ofGrammar base g) rules) ∨
    ∃ scope, (ofGrammar base self).follow ref = .need (.whole scope) := by
  have hentry : ∀ name, ∀ l ∈ (Keyed.get? name self.locatedEntries).toList, self.Holds l :=
    fun name l hl => Definition.holds_of_get?_locatedEntries (Option.mem_toList.1 hl)
  cases ref with
  | base => exact .inl ⟨base, base.tops, .inr rfl, fun _ => hbase.holds_tops, rfl⟩
  | self => exact .inl ⟨self, self.tops, .inl rfl, fun _ => hself.holds_tops, rfl⟩
  | named name => exact .inl ⟨self, _, .inl rfl, hentry name, rfl⟩
  | grammar scope =>
    rw [follow_grammar]
    cases hd : (ofGrammar base self).grammar? scope with
    | none => exact .inr ⟨scope, rfl⟩
    | some d =>
      obtain ⟨rfl | rfl, -⟩ := grammar?_ofGrammar hd
      · exact .inl ⟨d, d.tops, .inl rfl, fun _ => hself.holds_tops, rfl⟩
      · exact .inl ⟨d, d.tops, .inr rfl, fun _ => hbase.holds_tops, rfl⟩
  | namedIn scope name =>
    obtain rfl : scope = self.scopeName := beq_iff_eq.1 href
    exact .inl ⟨self, _, .inl rfl, hentry name, follow_namedIn_self base self name⟩

/-! ## Parts of a walk -/

namespace Findings

/-- All that is needed are whole grammars. -/
def OnlyWhole (f : Findings) : Prop := ∀ n ∈ f.needs, n = .whole n.scope

/-- The grammar of a scope is needed as a whole. -/
def Asks (f : Findings) (scope : String) : Prop := .whole scope ∈ f.needs

/-- What was found is still found. -/
structure Within (f f' : Findings) : Prop where
  /-- The rules. -/
  visited : f.visited ⊆ f'.visited
  /-- The needs. -/
  needs : f.needs ⊆ f'.needs

/-- **A part of a walk**: what was found is still found, only whole grammars are needed, and all
rules that were visited in it have been seen. -/
structure Walked (full : String → Option Definition) (base : Definition) (f f' : Findings) :
    Prop extends f.Within f' where
  /-- The needs are of whole grammars. -/
  onlyWhole : f'.OnlyWhole
  /-- The rules visited in it. -/
  seen : ∀ self l, full self.scopeName = some self → self.Holds l → l.site ∈ f'.visited →
    l.site ∈ f.visited ∨ Seen base self (· ∈ f'.visited) f'.Asks l

variable {full : String → Option Definition} {base : Definition} {f f' f'' : Findings}

theorem Within.seen (h : f.Within f') {self : Definition} {l : Located}
    (hl : Seen base self (· ∈ f.visited) f.Asks l) : Seen base self (· ∈ f'.visited) f'.Asks l :=
  hl.mono (fun _ hs => h.visited hs) (fun _ hs => h.needs hs)

theorem Walked.refl (h : f.OnlyWhole) : Walked full base f f :=
  ⟨⟨fun _ h => h, fun _ h => h⟩, h, fun _ _ _ _ h => .inl h⟩

theorem Walked.trans (h : Walked full base f f') (h' : Walked full base f' f'') :
    Walked full base f f'' where
  visited := fun _ hs => h'.visited (h.visited hs)
  needs := fun _ hn => h'.needs (h.needs hn)
  onlyWhole := h'.onlyWhole
  seen := fun self l hself hl hsite => by
    obtain hsite | hseen := h'.seen self l hself hl hsite
    · exact (h.seen self l hself hl hsite).imp_right h'.toWithin.seen
    · exact .inr hseen

/-- Noting that a whole grammar is needed. -/
theorem walked_note (hf : f.OnlyWhole) (scope : String) :
    Walked full base f (f.note (.whole scope)) ∧ (f.note (.whole scope)).Asks scope := by
  unfold note
  split
  · next h =>
    obtain ⟨n, hn, htext⟩ := List.any_eq_true.1 h
    obtain hwhole := hf n hn
    rw [hwhole] at hn htext
    have hscope : n.scope = scope := beq_iff_eq.1 htext
    exact ⟨.refl hf, hscope ▸ hn⟩
  · refine ⟨⟨⟨fun _ h => h, fun n hn => List.mem_append_left _ hn⟩, ?_, ?_⟩,
      List.mem_append_right _ List.mem_cons_self⟩
    · intro n hn
      obtain hn | hn := List.mem_append.1 hn
      · exact hf n hn
      · obtain rfl := List.mem_singleton.1 hn
        rfl
    · exact fun _ _ _ _ h => .inl h

end Findings

/-! ## The walk -/

/-- The part of a walk that goes on inside a rule. -/
def walkInside (depth : Nat) (o : Outlook) (l : Located) (f : Findings) : Findings :=
  match l.rule.patterns with
  | some patterns => walk depth (o.inside l) (locatePatterns l.site patterns) f
  | none => f

/-- The part of a walk that goes where a reference leads. -/
def walkTarget (depth : Nat) (f : Findings) : Target → Findings
  | .rules o rules => walk depth o rules f
  | .need n => f.note n

/-- The part of a walk that goes where the reference of a rule leads. -/
def walkReference (depth : Nat) (o : Outlook) (l : Located) (f : Findings) : Findings :=
  match l.rule.reference with
  | none => f
  | some text => walkTarget depth f ((o.inside l).follow (.ofText text))

/-- The part of a walk that begins with one rule. -/
def walkRule (depth : Nat) (o : Outlook) (f : Findings) (l : Located) : Findings :=
  if f.visited.contains l.site then f
  else walkReference depth o l (walkInside depth o l (f.visit l.site))

theorem walk_succ (depth : Nat) (o : Outlook) (rules : List Located) (f : Findings) :
    walk (depth + 1) o rules f = rules.foldl (walkRule depth o) f := rfl

/-- All grammars that are to be had are named as they are asked for. -/
def NamedSupply (full : String → Option Definition) : Prop :=
  ∀ scope d, full scope = some d → d.scopeName = scope

/-- All grammars that are to be had are named as they are asked for, and plain. -/
def PlainSupply (full : String → Option Definition) : Prop :=
  ∀ scope d, full scope = some d → d.scopeName = scope ∧ ∃ names, d.Plain names

theorem PlainSupply.named {full : String → Option Definition} (h : PlainSupply full) :
    NamedSupply full :=
  fun scope d hd => (h scope d hd).1

/-- How many rules of a catalog a walk has not come by. -/
def Catalog.fresh (c : Catalog) (f : Findings) : Nat :=
  (c.sites.toFinset \ f.visited.toFinset).card

namespace Catalog

variable {c : Catalog} {f f' : Findings}

theorem fresh_le (h : f.visited ⊆ f'.visited) : c.fresh f' ≤ c.fresh f := unvisited_le h

theorem fresh_visit_lt {s : Site} (hs : s ∈ c.sites) (hfresh : s ∉ f.visited) :
    c.fresh (f.visit s) < c.fresh f := unvisited_cons_lt hs hfresh

theorem fresh_le_size (c : Catalog) (f : Findings) : c.fresh f ≤ c.size :=
  (unvisited_le_length c.sites f.visited).trans c.length_sites_le

end Catalog

section Walk

variable {full : String → Option Definition} {c : Catalog} {base : Definition}

/-- If each rule of a list is visited by its part of the walk, so are all of them. -/
theorem foldl_walked {step : Findings → Located → Findings} {rules : List Located} {f : Findings}
    (hf : f.OnlyWhole)
    (hstep : ∀ l ∈ rules, ∀ f₁ : Findings, f₁.OnlyWhole → f.visited ⊆ f₁.visited →
      f₁.Walked full base (step f₁ l) ∧ l.site ∈ (step f₁ l).visited) :
    f.Walked full base (rules.foldl step f) ∧
      ∀ l ∈ rules, l.site ∈ (rules.foldl step f).visited := by
  induction rules generalizing f with
  | nil => exact ⟨.refl hf, fun l hl => absurd hl List.not_mem_nil⟩
  | cons l rules ih =>
    obtain ⟨hl, hsite⟩ := hstep l List.mem_cons_self f hf (fun _ h => h)
    obtain ⟨hrules, hsites⟩ := ih hl.onlyWhole (fun l' hl' f₁ hf₁ h =>
      hstep l' (List.mem_cons_of_mem _ hl') f₁ hf₁ (fun _ hs => h (hl.visited hs)))
    refine ⟨hl.trans hrules, fun l' hl' => ?_⟩
    obtain rfl | hl' := List.mem_cons.1 hl'
    · exact hrules.visited hsite
    · exact hsites l' hl'

/-- What walking through lists of rules at some depth comes to. -/
def WalksAt (full : String → Option Definition) (c : Catalog) (base : Definition) (depth : Nat) :
    Prop :=
  ∀ {self : Definition}, c.grammar? self.scopeName = some self → ∀ {rules : List Located},
    (∀ l ∈ rules, self.Holds l) → ∀ {f : Findings}, f.OnlyWhole → c.fresh f < depth →
    f.Walked full base (walk depth (.ofGrammar base self) rules f) ∧
      ∀ l ∈ rules, l.site ∈ (walk depth (.ofGrammar base self) rules f).visited

variable {depth : Nat} {self : Definition} {l : Located} {f : Findings}

theorem walkInside_walked (hdepth : WalksAt full c base depth)
    (hself : c.grammar? self.scopeName = some self) (hl : self.Holds l)
    (hrepository : l.rule.repository = []) (hf : f.OnlyWhole) (hroom : c.fresh f < depth) :
    f.Walked full base (walkInside depth (.ofGrammar base self) l f) ∧
      ∀ ps ∈ l.rule.patterns, ∀ l' ∈ locatePatterns l.site ps,
        l'.site ∈ (walkInside depth (.ofGrammar base self) l f).visited := by
  rw [walkInside, Outlook.inside_eq hrepository]
  cases hps : l.rule.patterns with
  | none => exact ⟨.refl hf, fun ps h => by simp at h⟩
  | some ps =>
    obtain ⟨hwalked, hsites⟩ := hdepth hself (fun l' hl' => hl.inside hps hl') hf hroom
    refine ⟨hwalked, fun ps' h => ?_⟩
    obtain rfl := Option.some.inj h
    exact hsites

/-- What a reference leads to is met once the walk has gone there. -/
theorem walkTarget_walked (hdepth : WalksAt full c base depth)
    (hself : c.grammar? self.scopeName = some self) (hbase : c.grammar? base.scopeName = some base)
    (hf : f.OnlyWhole) (hroom : c.fresh f < depth) (target : Target)
    (htarget : (∃ g rules, (g = self ∨ g = base) ∧ (∀ l ∈ rules, g.Holds l) ∧
      target = .rules (.ofGrammar base g) rules) ∨ ∃ scope, target = .need (.whole scope)) :
    f.Walked full base (walkTarget depth f target) ∧
      target.Met (· ∈ (walkTarget depth f target).visited) (walkTarget depth f target).Asks := by
  obtain ⟨g, rules, hg, hrules, rfl⟩ | ⟨scope, rfl⟩ := htarget
  · have hg : c.grammar? g.scopeName = some g := by
      obtain rfl | rfl := hg
      · exact hself
      · exact hbase
    exact hdepth hg hrules hf hroom
  · exact Findings.walked_note hf scope

theorem walkReference_walked (hdepth : WalksAt full c base depth)
    (hself : c.grammar? self.scopeName = some self) (hbase : c.grammar? base.scopeName = some base)
    {namesBase namesSelf : List String} (hplainBase : base.Plain namesBase)
    (hplainSelf : self.Plain namesSelf) (hl : self.Holds l) (hf : f.OnlyWhole)
    (hroom : c.fresh f < depth) :
    f.Walked full base (walkReference depth (.ofGrammar base self) l f) ∧
      ∀ text ∈ l.rule.reference, ((Outlook.ofGrammar base self).follow (.ofText text)).Met
        (· ∈ (walkReference depth (.ofGrammar base self) l f).visited)
        (walkReference depth (.ofGrammar base self) l f).Asks := by
  have hplain := hplainSelf.of_holds hl
  rw [walkReference, Outlook.inside_eq hplain.repository]
  cases htext : l.rule.reference with
  | none => exact ⟨.refl hf, fun text h => by simp at h⟩
  | some text =>
    have htarget := walkTarget_walked hdepth hself hbase hf hroom _
      (Outlook.follow_cases hplainBase hplainSelf (hplain.reference text htext))
    refine ⟨htarget.1, fun text' h => ?_⟩
    obtain rfl := Option.some.inj h
    exact htarget.2

/-- The part of a walk that begins with one rule: of all that is visited in it, that rule alone is
marked before it has been seen. -/
theorem walkRule_walked (hc : ∀ scope d, c.grammar? scope = some d → full scope = some d)
    (hdepth : WalksAt full c base depth) (hself : c.grammar? self.scopeName = some self)
    (hbase : c.grammar? base.scopeName = some base) {namesBase namesSelf : List String}
    (hplainBase : base.Plain namesBase) (hplainSelf : self.Plain namesSelf) (hl : self.Holds l)
    (hf : f.OnlyWhole) (hroom : c.fresh f ≤ depth) :
    f.Walked full base (walkRule depth (.ofGrammar base self) f l) ∧
      l.site ∈ (walkRule depth (.ofGrammar base self) f l).visited := by
  unfold walkRule
  split
  · next hvisited => exact ⟨.refl hf, List.contains_iff_mem.1 hvisited⟩
  next hvisited =>
  have hsite : l.site ∉ f.visited := fun h => hvisited (List.contains_iff_mem.2 h)
  have hroom : c.fresh (f.visit l.site) < depth :=
    lt_of_lt_of_le (Catalog.fresh_visit_lt (c.mem_sites hself hl) hsite) hroom
  have hvisit : (f.visit l.site).OnlyWhole := hf
  obtain ⟨hinside, hpatterns⟩ := walkInside_walked hdepth hself hl
    (hplainSelf.of_holds hl).repository hvisit hroom
  obtain ⟨hreference, hmet⟩ := walkReference_walked hdepth hself hbase hplainBase hplainSelf hl
    hinside.onlyWhole (lt_of_le_of_lt (Catalog.fresh_le hinside.visited) hroom)
  have hwalked := hinside.trans hreference
  have hvisited : f.visited ⊆ (f.visit l.site).visited := fun _ => List.mem_cons_of_mem _
  refine ⟨⟨⟨List.Subset.trans hvisited hwalked.visited, hwalked.needs⟩, hwalked.onlyWhole, ?_⟩,
    hwalked.visited List.mem_cons_self⟩
  intro g l' hg hl' hmem
  obtain hmem | hseen := hwalked.seen g l' hg hl' hmem
  · obtain hsame | hmem := List.mem_cons.1 hmem
    · have hscope : g.scopeName = self.scopeName := by rw [← hl'.1, hsame, hl.1]
      obtain rfl : g = self := by
        rw [hscope, hc _ _ hself] at hg
        exact (Option.some.inj hg).symm
      obtain rfl := hl'.eq_of_site_eq hl hsame
      exact .inr ⟨fun ps hps l' hl' => hreference.visited (hpatterns ps hps l' hl'), hmet⟩
    · exact .inl hmem
  · exact .inr hseen

/-- **A walk leaves nothing out**: it visits the rules that it is given, and all rules that it
visits are seen when it is over. The induction is on its depth, which is more than the number of
rules that are left. -/
theorem walk_walked (hfull : PlainSupply full)
    (hc : ∀ scope d, c.grammar? scope = some d → full scope = some d)
    (hbase : c.grammar? base.scopeName = some base) (depth : Nat) : WalksAt full c base depth := by
  induction depth with
  | zero => exact fun _ _ _ _ _ hroom => absurd hroom (Nat.not_lt_zero _)
  | succ depth ih =>
    intro self hself rules hrules f hf hroom
    obtain ⟨-, namesBase, hplainBase⟩ := hfull _ _ (hc _ _ hbase)
    obtain ⟨-, namesSelf, hplainSelf⟩ := hfull _ _ (hc _ _ hself)
    rw [walk_succ]
    refine foldl_walked hf (fun l hl f₁ hf₁ hle => ?_)
    exact walkRule_walked hc ih hself hbase hplainBase hplainSelf (hrules l hl) hf₁
      (Nat.le_trans (Catalog.fresh_le hle) (Nat.le_of_lt_succ hroom))

/-- Noting the grammars of a list. -/
theorem foldl_note_walked (scopes : List String) (hf : f.OnlyWhole) :
    f.Walked full base (scopes.foldl (fun f i => f.note (.whole i)) f) ∧
      ∀ i ∈ scopes, (scopes.foldl (fun f i => f.note (.whole i)) f).Asks i := by
  induction scopes generalizing f with
  | nil => exact ⟨.refl hf, fun i hi => absurd hi List.not_mem_nil⟩
  | cons scope scopes ih =>
    obtain ⟨hnote, hasks⟩ := Findings.walked_note hf scope
    obtain ⟨hrest, hall⟩ := ih hnote.onlyWhole
    refine ⟨hnote.trans hrest, fun i hi => ?_⟩
    obtain rfl | hi := List.mem_cons.1 hi
    · exact hrest.needs hasks
    · exact hall i hi

/-- **Exploring a grammar** as a whole visits the rules at its top, and notes the grammars that are
to be injected into it. -/
theorem explore_walked (hfull : PlainSupply full)
    (hc : ∀ scope d, c.grammar? scope = some d → full scope = some d)
    (hbase : c.grammar? base.scopeName = some base) {f f' : Findings} (hf : f.OnlyWhole)
    {scope : String} (h : Dependencies.explore c base.scopeName f (.whole scope) = .ok f') :
    f.Walked full base f' ∧ ∀ self, c.grammar? scope = some self →
      (∀ l ∈ self.tops, l.site ∈ f'.visited) ∧ ∀ i ∈ c.injectionsInto scope, f'.Asks i := by
  unfold Dependencies.explore at h
  rw [hbase, Need.scope] at h
  cases hself : c.grammar? scope with
  | none =>
    simp only [hself] at h
    split at h
    · simp at h
    · obtain rfl := Except.ok.inj h
      exact ⟨.refl hf, fun self h => by simp at h⟩
  | some self =>
    simp only [hself] at h
    obtain rfl := Except.ok.inj h
    obtain ⟨rfl, names, hplain⟩ := hfull _ _ (hc _ _ hself)
    obtain ⟨hwalked, hmet⟩ := walkTarget_walked (walk_walked hfull hc hbase (c.size + 1)) hself
      hbase hf (Nat.lt_succ_of_le (c.fresh_le_size f)) (.rules (.ofGrammar base self) self.tops)
      (.inl ⟨self, self.tops, .inl rfl, fun l => hplain.holds_tops, rfl⟩)
    obtain ⟨hnotes, hasks⟩ := foldl_note_walked
      (c.injectionsInto self.scopeName) hwalked.onlyWhole
    refine ⟨hwalked.trans hnotes, fun self' hself' => ?_⟩
    obtain rfl := Option.some.inj hself'
    exact ⟨fun l hl => hnotes.visited (hmet l hl), hasks⟩

end Walk

end Highlight.Grammar
