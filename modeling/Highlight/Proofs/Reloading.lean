import Highlight.Proofs.Limits
import Highlight.Proofs.Loading

/-!
# Loading a grammar again

Loading a grammar changes the registry, as all that was fetched is added to the catalog. Loading it
once more, with nothing in between, begins with the catalog that the first loading ended with. One
expects the same grammar with the same rules and injections, and that nothing is fetched any more.

It is not always so. A grammar that is fetched may ask to be injected into one that was explored in
an earlier round. The second loading explores that one with the new injection, asks for the injected
grammar as a whole, and may fetch what the first one has left out.

There are two ways in which this cannot happen. Either all injections **come in time**: no grammar
that is fetched in a round is noted to be injected into a grammar that was explored in an earlier
one. Then the rounds of the second loading repeat those of the first, walk by walk. Or all grammars
are plain, and so are only asked for as a whole. Then a grammar that is injected late was asked for
on its own, and what was asked for covers all that the second loading finds, in whatever order it
finds it.
-/

namespace Highlight

open Grammar

variable {σ : Type}

namespace Grammar.Dependencies

/-! ## What a round depends on -/

variable {c c' : Catalog} {root : String} {d d' : Dependencies}

/-- What is found from a need depends on its grammar, on the grammar that all began with, and on the
grammars to be injected. -/
theorem explore_congr {n : Need} (hself : c'.grammar? n.scope = c.grammar? n.scope)
    (hroot : c'.grammar? root = c.grammar? root)
    (hinjections : (c.grammar? n.scope).isSome →
      c'.injectionsInto n.scope = c.injectionsInto n.scope) (f : Findings) :
    explore c' root f n = explore c root f n := by
  cases hself₁ : c.grammar? n.scope with
  | none => simp only [explore, hself, hself₁]
  | some self =>
    cases hbase : c.grammar? root with
    | none => simp only [explore, hself, hself₁, hroot, hbase]
    | some base =>
      obtain ⟨f₁, hwalks, h⟩ := Catalog.exists_walks hbase hself₁ f
      obtain ⟨f₂, hwalks', h'⟩ :=
        Catalog.exists_walks (hroot.trans hbase) (hself.trans hself₁) f
      rw [h, h', hwalks.eq hwalks', hinjections (by rw [hself₁]; rfl)]

/-- What a round asks for depends on the grammars in its queue, on the grammar that all began with,
and on the grammars to be injected. -/
theorem next_congr (hself : ∀ n ∈ d.queue, c'.grammar? n.scope = c.grammar? n.scope)
    (hroot : c'.grammar? d.root = c.grammar? d.root)
    (hinjections : ∀ n ∈ d.queue, (c.grammar? n.scope).isSome →
      c'.injectionsInto n.scope = c.injectionsInto n.scope) :
    d.next c' = d.next c := by
  have hfound : ∀ queue ⊆ d.queue, ∀ f,
      queue.foldlM (explore c' d.root) f = queue.foldlM (explore c d.root) f := by
    intro queue hqueue
    induction queue with
    | nil => exact fun f => rfl
    | cons n queue ih =>
      intro f
      have hn := hqueue List.mem_cons_self
      rw [List.foldlM_cons, List.foldlM_cons,
        explore_congr (hself n hn) hroot (hinjections n hn)]
      exact bind_congr (ih (List.subset_of_cons_subset hqueue))
  rw [next, next, hfound _ (List.Subset.refl _)]

/-- The first round needs the grammar that all begins with. -/
theorem isSome_of_next_ofRoot (h : (ofRoot root).next c = .ok d') : (c.grammar? root).isSome := by
  obtain ⟨found, hfound, -⟩ := exists_of_next h
  cases hroot : c.grammar? root with
  | none => simp [ofRoot, explore, Need.scope, hroot] at hfound
  | some base => rfl

end Grammar.Dependencies

/-! ## Fetching what is known -/

namespace Fetching

variable {f : Fetching} {source : Option Source}

/-- Nothing is added for a scope of which the catalog has all that is to be had. -/
theorem catalog_ensured {scope : String}
    (h : f.catalog.grammar? scope = f.catalog.supply source scope) :
    (f.ensured source scope).catalog = f.catalog := by
  unfold ensured
  split
  · rfl
  next hknown =>
  rw [Catalog.supply, Option.not_isSome_iff_eq_none.1 hknown, Option.none_or] at h
  cases source with
  | none => rfl
  | some source =>
    have hnone : source.grammar? scope = none := h.symm
    simp only [hnone]

theorem catalog_fetched {queue : List Need}
    (h : ∀ n ∈ queue, f.catalog.grammar? n.scope = f.catalog.supply source n.scope) :
    (f.fetched source queue).catalog = f.catalog := by
  induction queue generalizing f with
  | nil => rfl
  | cons n queue ih =>
    have hn := catalog_ensured (h n List.mem_cons_self)
    refine (ih (f := f.ensured source n.scope) (fun n' hn' => ?_)).trans hn
    rw [hn]
    exact h n' (List.mem_cons_of_mem _ hn')

end Fetching

namespace Fetch

variable {source : Option Source} {full : String → Option Definition} {f f' : Fetching}
  {d d' : Dependencies}

/-- Fetching loses no grammar. -/
theorem Settles.keeps (h : Settles source f d f' d') (hfull : NamedSupply full)
    (hf : ∀ s, f.catalog.supply source s = full s) {s : String} {g : Definition}
    (hg : f.catalog.grammar? s = some g) : f'.catalog.grammar? s = some g := by
  induction h with
  | done _ => exact hg
  | round _ _ ih =>
    obtain ⟨hsupply, henlarges, -⟩ := Fetching.fetched_spec hfull hf _
    exact ih hsupply (henlarges.keeps s g hg)

/-- Of what the catalog has all that is to be had, it still has it when the rounds have settled. -/
theorem Settles.got (h : Settles source f d f' d') (hfull : NamedSupply full)
    (hf : ∀ s, f.catalog.supply source s = full s) {s : String}
    (hs : f.catalog.grammar? s = full s) : f'.catalog.grammar? s = full s := by
  cases hg : full s with
  | none =>
    have hsupply := h.supply hfull hf s
    rw [hg, Catalog.supply, Option.or_eq_none_iff] at hsupply
    exact hsupply.1
  | some g => exact h.keeps hfull hf (hs.trans hg)

/-- Where nothing is asked for, a round changes nothing. -/
theorem eq_of_next_of_queue_eq_nil (hqueue : d.queue = [])
    (h : d.next (f.fetched source d.queue).catalog = .ok d') :
    f.fetched source d.queue = f ∧ d' = d := by
  refine ⟨by rw [hqueue]; rfl, ?_⟩
  rw [Dependencies.next_of_queue_eq_nil hqueue] at h
  exact (Except.ok.inj h).symm

/-- Rounds that settle what is asked for are what fetching does, unless it is cut short. -/
theorem Settles.run_rounds (h : Settles source f d f' d') (limit : Nat) :
    (rounds source limit d).run f = .ok () f' ∨
      ∃ f'', (rounds source limit d).run f = .error .rounds f'' := by
  induction h generalizing limit with
  | done hempty =>
    cases limit with
    | zero => exact .inr ⟨_, rfl⟩
    | succ limit => rw [run_rounds_succ, if_pos (List.isEmpty_iff.2 hempty)]; exact .inl rfl
  | @round _ _ d _ _ hnext _ ih =>
    cases limit with
    | zero => exact .inr ⟨_, rfl⟩
    | succ limit =>
      by_cases hempty : d.queue = []
      · obtain ⟨hfetched, hd⟩ := eq_of_next_of_queue_eq_nil hempty hnext
        rw [hfetched, hd] at ih
        exact ih (limit + 1)
      · rw [run_rounds_succ, if_neg (fun h => hempty (List.isEmpty_iff.1 h)), hnext]
        exact ih limit

end Fetch

/-! ## Injections that come in time -/

/-- **Injections come in time** while what is asked for is fetched: no grammar that is fetched in a
round is noted to be injected into a known grammar that was explored in an earlier one. -/
def Fetch.inTime (source : Option Source) :
    (limit : Nat) → (explored : List String) → Fetching → Dependencies → Bool
  | 0, _, _, _ => false
  | limit + 1, explored, f, d =>
    let f' := f.fetched source d.queue
    d.queue.isEmpty ||
      (explored.all (fun s => (f.catalog.grammar? s).isNone ||
          decide (f'.catalog.injectionsInto s = f.catalog.injectionsInto s)) &&
        match d.next f'.catalog with
        | .ok d' => inTime source limit (explored ++ d.queue.map (·.scope)) f' d'
        | .error _ => true)

namespace Fetch

variable {source : Option Source} {full : String → Option Definition} {f f' : Fetching}
  {d d' : Dependencies} {limit : Nat} {explored : List String}

/-- What it is for injections to come in time, where something is asked for and found. -/
theorem inTime_succ (hqueue : d.queue ≠ [])
    (hnext : d.next (f.fetched source d.queue).catalog = .ok d')
    (h : inTime source (limit + 1) explored f d = true) :
    (∀ s ∈ explored, (f.catalog.grammar? s).isSome →
        (f.fetched source d.queue).catalog.injectionsInto s = f.catalog.injectionsInto s) ∧
      inTime source limit (explored ++ d.queue.map (·.scope)) (f.fetched source d.queue) d' =
        true := by
  have hempty : d.queue.isEmpty = false :=
    Bool.eq_false_iff.2 (fun h => hqueue (List.isEmpty_iff.1 h))
  simp only [inTime, hempty, hnext, Bool.false_or, Bool.and_eq_true, List.all_eq_true,
    Bool.or_eq_true, Option.isNone_iff_eq_none, decide_eq_true_eq] at h
  refine ⟨fun s hs hknown => (h.1 s hs).resolve_left (fun hnone => ?_), h.2⟩
  simp [hnone] at hknown

/-- The injections into a grammar that was explored stay what they were. -/
theorem Settles.injectionsInto_eq (h : Settles source f d f' d') (hfull : NamedSupply full)
    (hf : ∀ s, f.catalog.supply source s = full s)
    (htime : inTime source limit explored f d = true) {s : String} (hs : s ∈ explored)
    (hknown : (f.catalog.grammar? s).isSome) :
    f'.catalog.injectionsInto s = f.catalog.injectionsInto s := by
  induction h generalizing limit explored with
  | done _ => rfl
  | @round f f' d d' _ hnext _ ih =>
    cases limit with
    | zero => simp [inTime] at htime
    | succ limit =>
    obtain ⟨hsupply, henlarges, -⟩ := Fetching.fetched_spec hfull hf d.queue
    by_cases hempty : d.queue = []
    · obtain ⟨hfetched, rfl⟩ := eq_of_next_of_queue_eq_nil hempty hnext
      rw [hfetched] at ih
      exact ih hf htime hs hknown
    · obtain ⟨hkept, htime⟩ := inTime_succ hempty hnext htime
      obtain ⟨g, hg⟩ := Option.isSome_iff_exists.1 hknown
      rw [ih hsupply htime (List.mem_append_left _ hs) (by rw [henlarges.keeps s g hg]; rfl)]
      exact hkept s hs hknown

/-- **The rounds repeat** with the catalog that they ended with, if injections come in time. The
induction is on the rounds of the first fetching. In each the second finds the same grammars and
injections, since what was got is kept and what was injected stays the same. -/
theorem Settles.again (h : Settles source f d f' d') (hfull : NamedSupply full)
    (hf : ∀ s, f.catalog.supply source s = full s)
    (hroot : (f.fetched source d.queue).catalog.grammar? d.root = full d.root)
    (htime : inTime source limit explored f d = true) (f₂ : Fetching)
    (hf₂ : f₂.catalog = f'.catalog) :
    ∃ f₂', Settles source f₂ d f₂' d' ∧ f₂'.catalog = f'.catalog := by
  induction h generalizing limit explored f₂ with
  | done hempty => exact ⟨f₂, .done hempty, hf₂⟩
  | @round f f' d d₁ d' hnext hrest ih =>
    cases limit with
    | zero => simp [inTime] at htime
    | succ limit =>
    by_cases hempty : d.queue = []
    · obtain ⟨hfetched, rfl⟩ := eq_of_next_of_queue_eq_nil hempty hnext
      rw [hfetched] at ih hroot
      exact ih hf (by rw [hfetched]; exact hroot) htime f₂ hf₂
    obtain ⟨-, htime⟩ := inTime_succ hempty hnext htime
    obtain ⟨hsupply, -, hgot⟩ := Fetching.fetched_spec hfull hf d.queue
    have hsame : ∀ s, (f.fetched source d.queue).catalog.grammar? s = full s →
        f'.catalog.grammar? s = (f.fetched source d.queue).catalog.grammar? s :=
      fun s hs => (hrest.got hfull hsupply hs).trans hs.symm
    have hfetched : (f₂.fetched source d.queue).catalog = f₂.catalog := by
      refine Fetching.catalog_fetched (fun n hn => ?_)
      rw [hf₂, hrest.supply hfull hsupply, hrest.got hfull hsupply (hgot n hn)]
    have hagain : d.next (f₂.fetched source d.queue).catalog = .ok d₁ := by
      rw [hfetched, hf₂, ← hnext]
      refine Dependencies.next_congr (fun n hn => hsame _ (hgot n hn)) (hsame _ hroot)
        (fun n hn hknown => ?_)
      exact hrest.injectionsInto_eq hfull hsupply htime
        (List.mem_append_right _ (List.mem_map_of_mem hn)) hknown
    have hroot₁ : ((f.fetched source d.queue).fetched source d₁.queue).catalog.grammar? d₁.root =
        full d₁.root := by
      obtain ⟨hsupply₁, henlarges, -⟩ := Fetching.fetched_spec hfull hsupply d₁.queue
      rw [Dependencies.root_of_next hnext]
      exact henlarges.grammar?_eq hsupply₁ hroot
    obtain ⟨f₂', hsettles, hf₂'⟩ := ih hsupply hroot₁ htime _ (hfetched.trans hf₂)
    exact ⟨f₂', .round hagain hsettles, hf₂'⟩

end Fetch

/-! ## Plain grammars -/

namespace Grammar

/-- Where a walk goes is covered by what was asked for: the rules are visited and belong to grammars
asked for, and what is needed was asked for as a whole. -/
def Target.Covered (c : Catalog) (base : Definition) (asked : String → Prop)
    (visited : Site → Prop) : Target → Prop
  | rules o located => ∃ self, o = .ofGrammar base self ∧ asked self.scopeName ∧
      c.grammar? self.scopeName = some self ∧ ∀ l ∈ located, self.Holds l ∧ visited l.site
  | need n => n = .whole n.scope ∧ asked n.scope

namespace Catalog.Covers

variable {c : Catalog} {base self : Definition} {asked : String → Prop} {visited : Site → Prop}

/-- What the reference of a rule that is visited leads to is covered. -/
theorem covered_target (hcov : c.Covers base asked visited) (hself : asked self.scopeName)
    (hget : c.grammar? self.scopeName = some self) {l : Located} (hl : self.Holds l)
    (hvisited : visited l.site) :
    ((Outlook.ofGrammar base self).target l).Covered c base asked visited := by
  obtain ⟨-, namesBase, hplainBase⟩ := hcov.plain _ hcov.begun base hcov.root
  obtain ⟨-, namesSelf, hplainSelf⟩ := hcov.plain _ hself self hget
  have hplain := hplainSelf.of_holds hl
  have hseen := hcov.seen _ hself self hget l hl hvisited
  rw [Outlook.target, Outlook.inside_eq hplain.repository]
  cases htext : l.rule.reference with
  | none => exact ⟨self, rfl, hself, hget, fun l hl => absurd hl List.not_mem_nil⟩
  | some text =>
    have hmet := hseen.reference text htext
    dsimp only
    obtain ⟨g, rules, hg, hrules, hfollow⟩ | ⟨scope, hfollow⟩ :=
      Outlook.follow_cases hplainBase hplainSelf (hplain.reference text htext)
    · rw [hfollow] at hmet ⊢
      obtain rfl | rfl := hg
      · exact ⟨g, rfl, hself, hget, fun l hl => ⟨hrules l hl, hmet l hl⟩⟩
      · exact ⟨g, rfl, hcov.begun, hcov.root, fun l hl => ⟨hrules l hl, hmet l hl⟩⟩
    · rw [hfollow] at hmet ⊢
      exact ⟨rfl, hmet⟩

/-- The rules inside a rule that is visited are covered. -/
theorem covered_inside (hcov : c.Covers base asked visited) (hself : asked self.scopeName)
    (hget : c.grammar? self.scopeName = some self) {l : Located} (hl : self.Holds l)
    (hvisited : visited l.site) :
    (Target.rules ((Outlook.ofGrammar base self).inside l)
      (locatePatterns l.site (l.rule.patterns.getD []))).Covered c base asked visited := by
  obtain ⟨-, names, hplain⟩ := hcov.plain _ hself self hget
  have hseen := hcov.seen _ hself self hget l hl hvisited
  rw [Outlook.inside_eq (hplain.of_holds hl).repository]
  refine ⟨self, rfl, hself, hget, fun l' hl' => ?_⟩
  cases hps : l.rule.patterns with
  | none => simp [hps, locatePatterns] at hl'
  | some ps =>
    rw [hps, Option.getD_some] at hl'
    exact ⟨hl.inside hps hl', hseen.inside ps hps l' hl'⟩

/-- **A walk through what is covered** finds only grammars that were asked for as a whole. -/
theorem needs_of_walks (hcov : c.Covers base asked visited) {t : Target} {f f' : Findings}
    (h : Walks t f f') (ht : t.Covered c base asked visited) :
    ∀ n ∈ f'.needs, n ∈ f.needs ∨ n = .whole n.scope ∧ asked n.scope := by
  induction h with
  | nil => exact fun n hn => .inl hn
  | again _ _ ih =>
    obtain ⟨self, ho, hself, hget, hrules⟩ := ht
    exact ih ⟨self, ho, hself, hget, fun l hl => hrules l (List.mem_cons_of_mem _ hl)⟩
  | rule _ _ _ _ ihinside ihtarget ihrest =>
    obtain ⟨self, rfl, hself, hget, hrules⟩ := ht
    obtain ⟨hl, hvisited⟩ := hrules _ List.mem_cons_self
    intro n hn
    obtain hn | hn := ihrest
      ⟨self, rfl, hself, hget, fun l hl => hrules l (List.mem_cons_of_mem _ hl)⟩ n hn
    · obtain hn | hn := ihtarget (hcov.covered_target hself hget hl hvisited) n hn
      · exact ihinside (hcov.covered_inside hself hget hl hvisited) n hn
      · exact .inr hn
    · exact .inr hn
  | need =>
    intro n hn
    obtain hn | rfl := Findings.mem_needs_note hn
    · exact .inl hn
    · exact .inr ht

end Catalog.Covers

end Grammar

/-- **Whatever is injected was asked for**: of each grammar that was asked for and explored, the
grammars to be injected were asked for. -/
def InjectedAsked (full : String → Option Definition) (f : Fetching) (d : Dependencies) : Prop :=
  ∀ s ∈ d.whole, .whole s ∈ d.queue ∨
    ∀ self, full s = some self → ∀ i ∈ f.catalog.injectionsInto s, i ∈ d.whole

section Plain

variable {full : String → Option Definition} {source : Option Source} {base : Definition}
  {f f' : Fetching} {d d' : Dependencies} {visited : Site → Prop}

/-- A round keeps up that whatever is injected was asked for: what is fetched in it was asked for,
and it alone asks for more. -/
theorem InjectedAsked.next (h : InjectedAsked full f d) (hfull : PlainSupply full)
    (hbase : full base.scopeName = some base) (hunder : Underway full source base f d visited)
    (hnext : d.next (f.fetched source d.queue).catalog = .ok d') :
    InjectedAsked full (f.fetched source d.queue) d' := by
  obtain ⟨hsupply, henlarges, -⟩ := Fetching.fetched_spec hfull.named hunder.supply d.queue
  have hgot := hunder.got hfull
  have hc : ∀ s g, (f.fetched source d.queue).catalog.grammar? s = some g → full s = some g :=
    fun s g hg => (hsupply s).symm.trans (Catalog.supply_of_grammar? hg)
  obtain ⟨found, hfound, rfl⟩ := Dependencies.exists_of_next hnext
  rw [hunder.root] at hfound
  obtain ⟨hwalked, hexplored⟩ := Dependencies.foldlM_explore_walked hfull hc
    ((hgot _ hunder.begun).trans hbase) (fun n hn => (hunder.queue n hn).1)
    (fun n hn => absurd hn List.not_mem_nil) hfound
  obtain ⟨hgrows, hasked⟩ := Dependencies.grows_foldl_ask hwalked.onlyWhole { d with queue := [] }
  intro s hs
  refine (hgrows.asked s hs).elim (fun hs => .inr (fun self hself i hi => ?_)) .inl
  obtain hqueued | hinjected := h s hs
  · exact hasked _ ((hexplored _ hqueued self ((hgot s hs).trans hself)).2 i hi)
  · obtain hqueued | ⟨hknown, -⟩ := hunder.explored s hs
    · exact hasked _ ((hexplored _ hqueued self ((hgot s hs).trans hself)).2 i hi)
    obtain hi | ⟨n, hn, rfl⟩ := henlarges.injections s self i (hknown.trans hself) hi
    · exact hgrows.whole (hinjected self hself i hi)
    · exact hgrows.whole (hunder.queue n hn).2

/-- When the rounds have settled, whatever is injected was asked for. -/
theorem InjectedAsked.settled (h : InjectedAsked full f d) (hfull : PlainSupply full)
    (hbase : full base.scopeName = some base) (hunder : Underway full source base f d visited)
    (hsettles : Fetch.Settles source f d f' d') : InjectedAsked full f' d' := by
  induction hsettles generalizing visited with
  | done _ => exact h
  | round hnext _ ih =>
    obtain ⟨visited', hunder'⟩ := hunder.next hfull hbase hnext
    exact ih (h.next hfull hbase hunder hnext) hunder'

/-- **A round asks only for what is covered**, if its queue is covered. -/
theorem Grammar.Catalog.Covers.queue_of_next {c : Catalog} {asked : String → Prop}
    (hcov : c.Covers base asked visited)
    (hinjected : ∀ s self, asked s → c.grammar? s = some self → ∀ i ∈ c.injectionsInto s, asked i)
    (hroot : d.root = base.scopeName)
    (hqueue : ∀ n ∈ d.queue, n = .whole n.scope ∧ asked n.scope) (hnext : d.next c = .ok d') :
    ∀ n ∈ d'.queue, n = .whole n.scope ∧ asked n.scope := by
  refine Dependencies.queue_of_next (fun n hn f f' hexplore => ?_) hnext
  obtain ⟨hwhole, hasked⟩ := hqueue n hn
  rw [hroot] at hexplore
  refine Dependencies.needs_of_explore (fun b self f₁ hb hself hwalks => ?_)
    (fun self hself i hi => ⟨rfl, hinjected _ self hasked hself i hi⟩) hexplore
  obtain rfl : base = b := Option.some.inj (hcov.root.symm.trans hb)
  obtain ⟨hname, names, hplain⟩ := hcov.plain _ hasked self hself
  refine hcov.needs_of_walks hwalks ?_
  rw [hwhole]
  exact ⟨self, rfl, hname ▸ hasked, hname ▸ hself, fun l hl =>
    ⟨hplain.holds_tops hl, hcov.tops _ hasked self hself l hl⟩⟩

/-- Where the catalog has all that is to be had of what is covered, the rounds add nothing. -/
theorem Fetch.Settles.catalog_of_covers (hsettles : Fetch.Settles source f d f' d')
    {asked : String → Prop} (hcov : f.catalog.Covers base asked visited)
    (hinjected : ∀ s self, asked s → f.catalog.grammar? s = some self →
      ∀ i ∈ f.catalog.injectionsInto s, asked i)
    (hgot : ∀ s, asked s → f.catalog.grammar? s = f.catalog.supply source s)
    (hroot : d.root = base.scopeName)
    (hqueue : ∀ n ∈ d.queue, n = .whole n.scope ∧ asked n.scope) : f'.catalog = f.catalog := by
  induction hsettles with
  | done _ => rfl
  | round hnext _ ih =>
    have hfetched := Fetching.catalog_fetched (fun n hn => hgot _ (hqueue n hn).2)
    rw [hfetched] at hnext ih
    exact ih hcov hinjected hgot ((Dependencies.root_of_next hnext).trans hroot)
      (hcov.queue_of_next hinjected hroot hqueue hnext)

end Plain

/-! ## Loading twice -/

namespace Fetch

variable {source : Option Source} {full : String → Option Definition} {f f' : Fetching}
  {d d' : Dependencies}

/-- When the rounds have settled, nothing is asked for. -/
theorem Settles.queue_eq_nil (h : Settles source f d f' d') : d'.queue = [] := by
  induction h with
  | done hempty => exact hempty
  | round _ _ ih => exact ih

/-- Fetching does not miss the grammar that all began with once the catalog has it. -/
theorem rounds_ne_missing (hfull : NamedSupply full)
    (hf : ∀ s, f.catalog.supply source s = full s) {base : Definition}
    (hroot : (f.fetched source d.queue).catalog.grammar? d.root = some base) (limit : Nat)
    (e : MissingGrammar) : (rounds source limit d).run f ≠ .error (.missing e) f' := by
  induction limit generalizing d f with
  | zero => exact fun h => by simp [rounds] at h
  | succ limit ih =>
    obtain ⟨hsupply, -, -⟩ := Fetching.fetched_spec hfull hf d.queue
    rw [run_rounds_succ]
    split
    · simp
    · split
      · next d₁ hnext =>
        obtain ⟨-, henlarges, -⟩ := Fetching.fetched_spec hfull hsupply d₁.queue
        refine ih hsupply ?_
        rw [Dependencies.root_of_next hnext]
        exact henlarges.keeps _ _ hroot
      · next e' hnext => simp [(Dependencies.missing_of_next hnext).1] at hroot

/-- The first round gets the grammar that all begins with, if it is to be had. -/
theorem grammar?_fetched_ofRoot (hfull : NamedSupply full)
    (hf : ∀ s, f.catalog.supply source s = full s) (root : String) :
    (f.fetched source (Dependencies.ofRoot root).queue).catalog.grammar? root = full root :=
  (Fetching.fetched_spec hfull hf _).2.2 (.whole root) (List.mem_singleton_self _)

/-- **Fetching that fails has added nothing.** The grammar that all began with is to be had nowhere,
so the first round fails. -/
theorem catalog_of_rounds_error (hfull : NamedSupply full)
    (hf : ∀ s, f.catalog.supply source s = full s) {root : String} {limit : Nat}
    {e : MissingGrammar} (h : (rounds source limit (.ofRoot root)).run f = .error (.missing e) f') :
    f'.catalog = f.catalog := by
  have hgot := grammar?_fetched_ofRoot hfull hf root
  cases hroot : full root with
  | some base => exact absurd h (rounds_ne_missing hfull hf (hgot.trans hroot) limit e)
  | none =>
    have hnone : f.catalog.grammar? root = none := by
      have hsupply := hf root
      rw [hroot, Catalog.supply, Option.or_eq_none_iff] at hsupply
      exact hsupply.1
    have hfetched : (f.fetched source (Dependencies.ofRoot root).queue).catalog = f.catalog := by
      refine Fetching.catalog_fetched (fun n hn => ?_)
      obtain rfl := List.mem_singleton.1 hn
      rw [hf, Need.scope, hnone, hroot]
    cases limit with
    | zero => simp [rounds] at h
    | succ limit =>
      rw [run_rounds_succ] at h
      cases hnext : (Dependencies.ofRoot root).next
          (f.fetched source (Dependencies.ofRoot root).queue).catalog with
      | error e' =>
        rw [hnext] at h
        obtain ⟨-, rfl⟩ := EStateM.Result.error.inj h
        exact hfetched
      | ok d' =>
        have hknown := Dependencies.isSome_of_next_ofRoot hnext
        rw [hgot, hroot] at hknown
        cases hknown

end Fetch

namespace Registry

variable {r : Registry σ} {scope : String}

/-- **Injections come in time** while a grammar is loaded. -/
def InjectsInTime (r : Registry σ) (scope : String) : Prop :=
  Fetch.inTime r.source r.roundLimit [] ⟨r.catalog, []⟩ (.ofRoot scope) = true

instance (r : Registry σ) (scope : String) : Decidable (r.InjectsInTime scope) :=
  inferInstanceAs (Decidable (_ = true))

/-- **Loading a grammar again yields the same**: the same highlighter or the same error, and nothing
more is added to the catalog. -/
def Reloads (r : Registry σ) (scope : String) (language : Nat)
    (configuration : Option Configuration) : Prop :=
  ∃ requested, (r.load scope language configuration).2.1.load scope language configuration =
    ((r.load scope language configuration).1, (r.load scope language configuration).2.1, requested)

/-- Loading again yields the same if fetching again adds nothing. -/
theorem reloads_of_settles (hnamed : NamedSupply r.supply)
    (hagain : ∀ f' d', Fetch.Settles r.source ⟨r.catalog, []⟩ (.ofRoot scope) f' d' →
      ∃ f₂ d₂, Fetch.Settles r.source ⟨f'.catalog, []⟩ (.ofRoot scope) f₂ d₂ ∧
        f₂.catalog = f'.catalog) (language : Nat) (configuration : Option Configuration) :
    r.Reloads scope language configuration := by
  obtain ⟨f', hrun⟩ | ⟨f', hrun⟩ := r.rounds_ends scope
  · obtain ⟨d', hsettles⟩ := Fetch.settles_of_rounds hrun
    obtain ⟨f₂, d₂, hsettles₂, hcatalog⟩ := hagain f' d' hsettles
    have hrun₂ : (Fetch.rounds r.source { r with catalog := f'.catalog }.roundLimit
        (.ofRoot scope)).run ⟨f'.catalog, []⟩ = .ok () f₂ := by
      obtain hok | ⟨f'', hcut⟩ :=
        hsettles₂.run_rounds { r with catalog := f'.catalog }.roundLimit
      · exact hok
      · obtain ⟨f₃, h⟩ | ⟨f₃, h⟩ := { r with catalog := f'.catalog }.rounds_ends scope
        · exact absurd (hcut.symm.trans h) (by simp)
        · exact absurd (hcut.symm.trans h) (by simp)
    refine ⟨f₂.requested.reverse, ?_⟩
    simp only [load, hrun, hrun₂, hcatalog]
  · have hcatalog := Fetch.catalog_of_rounds_error hnamed (fun _ => rfl) hrun
    have hsame : (r.load scope language configuration).2.1 = r := by
      simp only [load, hrun, hcatalog]
    refine ⟨(r.load scope language configuration).2.2, ?_⟩
    rw [hsame]
    exact Prod.ext rfl (Prod.ext hsame rfl)

/-- The second fetching adds nothing if injections come in time: its rounds are the first once
more. -/
theorem again_of_injectsInTime (hnamed : NamedSupply r.supply) (htime : r.InjectsInTime scope)
    {f' : Fetching} {d' : Dependencies}
    (h : Fetch.Settles r.source ⟨r.catalog, []⟩ (.ofRoot scope) f' d') :
    ∃ f₂ d₂, Fetch.Settles r.source ⟨f'.catalog, []⟩ (.ofRoot scope) f₂ d₂ ∧
      f₂.catalog = f'.catalog := by
  have hroot := Fetch.grammar?_fetched_ofRoot (f := ⟨r.catalog, []⟩) hnamed (fun _ => rfl) scope
  obtain ⟨f₂, hsettles, hcatalog⟩ :=
    h.again hnamed (fun _ => rfl) hroot htime ⟨f'.catalog, []⟩ rfl
  exact ⟨f₂, d', hsettles, hcatalog⟩

/-- If fetching comes to an end, the scope that it began with has a grammar. -/
theorem exists_supply_of_settles (hnamed : NamedSupply r.supply) {f' : Fetching}
    {d' : Dependencies} (h : Fetch.Settles r.source ⟨r.catalog, []⟩ (.ofRoot scope) f' d') :
    ∃ base, r.supply scope = some base ∧ base.scopeName = scope := by
  have hknown : (r.supply scope).isSome := by
    cases h with
    | done hempty => simp [Dependencies.ofRoot] at hempty
    | round hnext _ =>
      have hroot := Fetch.grammar?_fetched_ofRoot (f := ⟨r.catalog, []⟩) hnamed (fun _ => rfl)
      exact hroot scope ▸ Dependencies.isSome_of_next_ofRoot hnext
  obtain ⟨base, hbase⟩ := Option.isSome_iff_exists.1 hknown
  exact ⟨base, hbase, hnamed _ _ hbase⟩

/-- The second fetching adds nothing if the grammars are plain: it ends, and what the first has
asked for covers all that it finds. -/
theorem again_of_plain (hplain : PlainSupply r.supply) {f' : Fetching} {d' : Dependencies}
    (h : Fetch.Settles r.source ⟨r.catalog, []⟩ (.ofRoot scope) f' d') :
    ∃ f₂ d₂, Fetch.Settles r.source ⟨f'.catalog, []⟩ (.ofRoot scope) f₂ d₂ ∧
      f₂.catalog = f'.catalog := by
  have hnamed := hplain.named
  have hsupply := h.supply hnamed (fun _ => rfl)
  obtain ⟨base, hbase, rfl⟩ := exists_supply_of_settles hnamed h
  have hunder : Underway r.supply r.source base ⟨r.catalog, []⟩ (.ofRoot base.scopeName)
      (fun _ => False) := .initial (fun _ => rfl)
  obtain ⟨hgot, visited, hcov⟩ := hunder.covers hplain hbase h
  have hinjected : ∀ s self, s ∈ d'.whole → f'.catalog.grammar? s = some self →
      ∀ i ∈ f'.catalog.injectionsInto s, i ∈ d'.whole := by
    intro s self hs hself
    have hinitial : InjectedAsked r.supply ⟨r.catalog, []⟩ (.ofRoot base.scopeName) :=
      fun s hs => .inl (List.mem_singleton.2 (congrArg _ (List.mem_singleton.1 hs)))
    have hsettled := hinitial.settled hplain hbase hunder h s hs
    rw [h.queue_eq_nil] at hsettled
    exact hsettled.resolve_left List.not_mem_nil self ((hgot s hs).symm.trans hself)
  obtain ⟨f₂, hrun⟩ | ⟨f₂, hrun⟩ := { r with catalog := f'.catalog }.rounds_ends base.scopeName
  · obtain ⟨d₂, hsettles₂⟩ := Fetch.settles_of_rounds hrun
    refine ⟨f₂, d₂, hsettles₂, hsettles₂.catalog_of_covers hcov hinjected
      (fun s hs => (hgot s hs).trans (hsupply s).symm) rfl (fun n hn => ?_)⟩
    obtain rfl := List.mem_singleton.1 hn
    exact ⟨rfl, hcov.begun⟩
  · have hroot := Fetch.grammar?_fetched_ofRoot (f := ⟨f'.catalog, []⟩) hnamed hsupply
      base.scopeName
    exact absurd hrun (Fetch.rounds_ne_missing (f := ⟨f'.catalog, []⟩)
      (d := .ofRoot base.scopeName) hnamed hsupply (hroot.trans hbase) _ _)

/-- **Loading is idempotent** if all grammars are named as they are asked for, and if injections
come in time or the grammars are plain. -/
theorem reloads (hnamed : NamedSupply r.supply)
    (h : r.InjectsInTime scope ∨ PlainSupply r.supply) (language : Nat)
    (configuration : Option Configuration) : r.Reloads scope language configuration :=
  reloads_of_settles hnamed (fun _ _ hsettles =>
    h.elim (fun htime => again_of_injectsInTime hnamed htime hsettles)
      (fun hplain => again_of_plain hplain hsettles)) language configuration

/-- A source of three grammars. The first refers to a named rule of the second, and has a rule with
a repository of its own. The second is injected into the first, which it asks for itself, and
refers to the third. -/
def timely : Source where
  grammars := [
    ("source.a", {
      scopeName := "source.a"
      patterns := [
        { reference := some "source.b#x" },
        { patterns := some [{ reference := some "#own" }]
          repository := [("own", { pattern := some "o", name := some "own" })] }] }),
    ("source.b", {
      scopeName := "source.b"
      patterns := [{ reference := some "source.c" }]
      repository := [("x", { pattern := some "x" })]
      injectionSelector := some "source.a"
      injectTo := ["source.a"] }),
    ("source.c", {
      scopeName := "source.c"
      patterns := [{ pattern := some "c", name := some "letter" }] })]
  injections := [("source.a", ["source.b"])]

theorem named_timely : NamedSupply (ofSource timely).supply :=
  .of_forall (fun p hp => absurd hp List.not_mem_nil) (fun s hs p hp => by
    obtain rfl := Option.some.inj hs
    have hall : ∀ p ∈ timely.grammars, p.2.scopeName = p.1 := by decide
    exact hall p hp)

/-- The source says that the second grammar is injected into the first, so its injection comes in
time, and loading the first grammar again yields the same. The grammars of `letters` are plain. -/
theorem reloads_timely :
    ((ofSource timely).InjectsInTime "source.a" ∧ (ofSource timely).Reloads "source.a" 1 none) ∧
      (PlainSupply (ofSource letters).supply ∧ (ofSource letters).Reloads "source.a" 1 none) := by
  have htime : (ofSource timely).InjectsInTime "source.a" := by decide +kernel
  exact ⟨⟨htime, reloads named_timely (.inl htime) 1 none⟩,
    plain_letters, reloads plain_letters.named (.inr plain_letters) 1 none⟩

/-- The same source, but for the injection: it does not say that the second grammar is injected into
the first, only that grammar does. -/
def late : Source := { timely with injections := [] }

/-- **A grammar that asks late to be injected is loaded in part.** All that is asked for of the
second grammar is a named rule. Once it is fetched, it is found that it is to be injected, and
compiled as a whole, but the third grammar, which it refers to, is not asked for. The second loading
asks for it, and makes another highlighter, of two rules more. -/
theorem not_reloads_late : NamedSupply (ofSource late).supply ∧
    ¬ (ofSource late).InjectsInTime "source.a" ∧
    ((ofSource late).load "source.a" 1 none).2.2 = ["source.a", "source.b"] ∧
    (((ofSource late).load "source.a" 1 none).2.1.load "source.a" 1 none).2.2 = ["source.c"] ∧
    ¬ (ofSource late).Reloads "source.a" 1 none := by
  have hfirst : ((ofSource late).load "source.a" 1 none).1.toOption.map
      (·.reader.rules.table.size) = some 5 := by
    decide +kernel
  have hsecond :
      (((ofSource late).load "source.a" 1 none).2.1.load "source.a" 1 none).1.toOption.map
        (·.reader.rules.table.size) = some 7 := by
    decide +kernel
  refine ⟨named_timely, by decide +kernel, by decide +kernel, by decide +kernel, ?_⟩
  rintro ⟨requested, hsame⟩
  rw [hsame] at hsecond
  dsimp only at hsecond
  rw [hfirst] at hsecond
  simp at hsecond

end Registry

end Highlight
