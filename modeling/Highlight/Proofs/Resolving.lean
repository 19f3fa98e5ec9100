import Highlight.Proofs.References

/-!
# References lead to what their names mean

If all grammars keep names inside, compilation only ever comes by rules that may be compiled with
what is in sight, and so all references of a rule lead right by the time that it is complete,
whoever came to it first. This is shown for each step of compilation, along with what the step
secures.

The one way out of a grammar that takes along what is in sight, the reference to the base, leads to
a grammar that has its number already, so that nothing is compiled then. A grammar that is injected
is its own base and has no number at first, but it is compiled at once.
-/

namespace Highlight.Grammar

open Compilation

namespace Compile

/-! ## Steps in sequence -/

section Secures

variable {inventory : List Located} {underWay : RuleId → Prop} {room : Nat} {α β : Type}
  {P P' : Compilation → Prop} {x : Compile α} {Q Q' : α → Compilation → Prop}

/-- What is secured in two ways is secured. -/
theorem Secures.and (h : Secures inventory underWay room P x Q)
    (h' : Secures inventory underWay room P' x Q') :
    Secures inventory underWay room (fun st => P st ∧ P' st) x (fun a st => Q a st ∧ Q' a st) := by
  intro st hst hP
  have hfirst := h st hst hP.1
  have hsecond := h' st hst hP.2
  cases hrun : x.run st with
  | error e st' => simpa only [hrun] using hfirst
  | ok a st' =>
    simp only [hrun] at hfirst hsecond
    exact ⟨hfirst.1, hfirst.2.1, hfirst.2.2, hsecond.2.2⟩

/-- What lasts, and was known before a step, is known after it. -/
theorem Secures.still (h : Secures inventory underWay room P x Q) (hP' : Lasts P')
    (hP : ∀ st, P st → P' st) :
    Secures inventory underWay room P x (fun a st => Q a st ∧ P' st) := by
  intro st hst hst'
  have := h st hst hst'
  cases hrun : x.run st with
  | error e st' => simpa only [hrun] using this
  | ok a st' =>
    simp only [hrun] at this
    exact ⟨this.1, this.2.1, this.2.2, hP' st st' this.1 (hP st hst')⟩

/-- The state that a step ends in is in order. -/
theorem Secures.ordered (h : Secures inventory underWay room P x Q) :
    Secures inventory underWay room P x (fun a st => Q a st ∧ st.InOrder inventory underWay) := by
  intro st hst hst'
  have := h st hst hst'
  cases hrun : x.run st with
  | error e st' => simpa only [hrun] using this
  | ok a st' =>
    simp only [hrun] at this
    exact ⟨this.1, this.2.1, this.2.2, this.2.1⟩

/-- What each step for a list secures of its result is secured of all results, each with the element
it is for. -/
theorem Secures.mapM_forall₂ {f : α → Compile β} {list : List α} {R : α → β → Compilation → Prop}
    (h : ∀ a ∈ list, Secures inventory underWay room P (f a) (fun b st => P st ∧ R a b st))
    (hR : ∀ a b, Lasts (R a b)) :
    Secures inventory underWay room P (list.mapM f)
      (fun bs st => P st ∧ List.Forall₂ (fun a b => R a b st) list bs) := by
  induction list with
  | nil => exact .pure (fun st hst => ⟨hst, .nil⟩)
  | cons a list ih =>
    obtain ⟨ha, hlist⟩ := List.forall_mem_cons.1 h
    rw [List.mapM_cons]
    refine ha.bind (fun b => ?_)
    refine Secures.bind ((ih hlist).mono (fun _ h => h.1) (fun _ _ h => h) |>.still (hR a b)
      (fun _ h => h.2)) (fun bs => .pure (fun st hst => ?_))
    exact ⟨hst.1.1, .cons hst.2 hst.1.2⟩

end Secures

theorem lasts_hasNumber (site : Site) : Lasts (fun st => st.HasNumber site) :=
  fun _ _ hextends h => hextends.hasNumber h

/-- **A step resolves** what it comes by if it keeps the references of all complete rules right. -/
abbrev Resolves {α : Type} (inventory : List Located) (underWay : RuleId → Prop) (room : Nat)
    (catalog : Catalog) (root : Definition) (P : Compilation → Prop) (x : Compile α)
    (Q : α → Compilation → Prop) : Prop :=
  Secures inventory underWay room (fun st => st.Lexical catalog root (fun _ => False) ∧ P st) x
    (fun a st => st.Lexical catalog root (fun _ => False) ∧ Q a st)

/-! ## What the steps of a compilation resolve -/

/-- **How rules are compiled resolves** what it comes by, and yields the number of the rule. -/
structure StepResolves (inventory : List Located) (underWay : RuleId → Prop) (room : Nat)
    (catalog : Catalog) (root : Definition) (step : Step) : Prop where
  /-- A rule that may be compiled, once the base has its number. -/
  faced : ∀ s d l, Faces inventory catalog root s d l →
    Resolves inventory underWay room catalog root (fun st => st.HasNumber s.base.site) (step s l)
      (fun id st => (l.site, id) ∈ st.numbers)
  /-- A rule that has its number. -/
  numbered : ∀ s l, Resolves inventory underWay room catalog root
    (fun st => st.HasNumber l.site) (step s l) (fun id st => (l.site, id) ∈ st.numbers)

section Parts

variable {inventory : List Located} {underWay : RuleId → Prop} {room : Nat} {catalog : Catalog}
  {root d : Definition} {step : Step} {s : Sight} {way : List Grammar.Step} {l : Located}

/-- **What opening a grammar yields** is a grammar that compilation may come by. Its base has its
number, unless the grammar is opened without one. Then it is its own base, and has yet to take its
number. -/
theorem openGrammar_resolves (hinv : Inventoried inventory catalog root)
    (hc : catalog.KeepsNames root) (scope : String)
    (base : Option Definition) :
    Secures inventory underWay room
      (fun st => st.Lexical catalog root (fun _ => False) ∧
        ∀ b ∈ base, catalog.Knows root b ∧ st.HasNumber b.site)
      (openGrammar catalog root scope base)
      (fun o? st =>
        st.Lexical catalog root (fun site => base = none ∧ ∃ o ∈ o?, site = o.self.site) ∧
          ∀ o ∈ o?, o.self.scopeName = scope ∧ catalog.Knows root o.self ∧
            catalog.Knows root o.base ∧
            (st.HasNumber o.base.site ∨ base = none ∧ o.base = o.self)) := by
  rintro st hst ⟨hlexical, hbase⟩
  have hsame : ∀ pending, st.Lexical catalog root pending :=
    fun pending => hlexical.mono (fun _ h => h.elim)
  unfold openGrammar
  by_cases hscope : scope = root.scopeName
  · rw [if_pos hscope]
    refine ⟨.refl st, hst.inOrder, hsame _, fun o ho => ?_⟩
    obtain rfl := Option.some.inj ho
    exact ⟨hscope.symm, .inl rfl, .inl rfl, .inl (hlexical.begun.resolve_right (fun h => h))⟩
  rw [if_neg hscope, EStateM.run_bind, EStateM.run_get]
  dsimp only
  cases hopened : Keyed.get? scope st.opened with
  | some o =>
    refine ⟨.refl st, hst.inOrder, hsame _, fun o' ho => ?_⟩
    obtain rfl := Option.some.inj ho
    obtain ⟨hscope, hself, hbase, hnumber⟩ := hlexical.opened scope o hopened
    exact ⟨hscope, hself, hbase, .inl (hnumber.resolve_right (fun h => h))⟩
  | none =>
  cases hd : catalog.grammar? scope with
  | none =>
    exact ⟨.refl st, hst.inOrder, hsame _, fun o ho => absurd ho (Option.not_mem_none o)⟩
  | some d =>
    obtain rfl := hc.named scope d hd
    have hself : catalog.Knows root d := .inr ⟨hd, hscope⟩
    have ho : catalog.Knows root (base.getD d) ∧
        (st.HasNumber (base.getD d).site ∨ base = none ∧ base.getD d = d) := by
      cases base with
      | none => exact ⟨hself, .inr ⟨rfl, rfl⟩⟩
      | some b => exact ⟨(hbase b rfl).1, .inl (hbase b rfl).2⟩
    have hwithin : Opened.Within inventory ⟨d, base.getD d⟩ :=
      ⟨hinv.within hself, hinv.within ho.1⟩
    refine ⟨⟨fun _ _ h => h, Nat.le_refl _, List.Subset.refl _⟩, hst.inOrder.opening hwithin,
      ⟨.inl (hlexical.begun.resolve_right (fun h => h)), fun scope' o' ho' => ?_,
        hlexical.references⟩, fun o' ho' => ?_⟩
    · rw [Keyed.get?] at ho'
      split at ho'
      · next hscope' =>
        obtain rfl := Option.some.inj ho'
        exact ⟨hscope', hself, ho.1, ho.2.imp_right (fun h => ⟨h.1, _, rfl, congrArg _ h.2⟩)⟩
      · obtain ⟨hscope', hself, hbase, hnumber⟩ := hlexical.opened scope' o' ho'
        exact ⟨hscope', hself, hbase, .inl (hnumber.resolve_right (fun h => h))⟩
    · obtain rfl := Option.some.inj ho'
      exact ⟨rfl, hself, ho⟩

/-- **A grammar that is referred to** is opened, if there is one, and looked at from its top. -/
theorem openGrammar_bind_resolves (hinv : Inventoried inventory catalog root)
    (hc : catalog.KeepsNames root)
    (hs : Looks inventory catalog root s d way way) (scope : String) {α : Type}
    {f : Option Opened → Compile α} {Q : α → Compilation → Prop}
    (hnone : Resolves inventory underWay room catalog root (fun _ => True) (f none) Q)
    (hsome : ∀ o : Opened, (∀ place, Looks inventory catalog root o.sight o.self [] place) →
      Resolves inventory underWay room catalog root (fun st => st.HasNumber o.sight.base.site)
        (f (some o)) Q) :
    Resolves inventory underWay room catalog root (fun st => st.HasNumber s.base.site)
      (openGrammar catalog root scope (some s.base) >>= f) Q := by
  refine Secures.bind ((openGrammar_resolves hinv hc scope (some s.base)).mono
    (fun st h => ⟨h.1, fun b hb => ?_⟩) (fun _ _ h => h)) (fun o? st hst h => ?_)
  · obtain rfl := Option.some.inj hb
    exact ⟨hs.base, h.2⟩
  · obtain ⟨hlexical, hopened⟩ := h
    have hkept : st.Lexical catalog root (fun _ => False) :=
      hlexical.mono (fun _ h => absurd h.1 (Option.some_ne_none _))
    cases o? with
    | none => exact hnone st hst ⟨hkept, trivial⟩
    | some o =>
      obtain ⟨-, hself, hbase, hnumber⟩ := hopened o rfl
      refine hsome o (Looks.top hinv hself hbase) st hst ⟨hkept, hnumber.resolve_right ?_⟩
      exact fun h => Option.some_ne_none _ h.1

/-- **What a reference leads to** is the rule that the name means. -/
theorem reference_resolves (hinv : Inventoried inventory catalog root)
    (hc : catalog.KeepsNames root) (hstep : StepResolves inventory underWay room catalog root step)
    (hs : Looks inventory catalog root s d way way) {ref : Reference}
    (href : d.Refers way ref) :
    Resolves inventory underWay room catalog root (fun st => st.HasNumber s.base.site)
      (reference catalog root step s ref)
      (fun id? st => ∀ name, ref = .named name →
        (∀ id ∈ id?, ∃ l, Keyed.get? name (d.namesIn way) = some l ∧ (l.site, id) ∈ st.numbers) ∧
          (id? = none → Keyed.get? name (d.namesIn way) = none)) := by
  cases ref with
  | base =>
    rw [reference, hs.sees.base]
    exact Secures.map (hstep.numbered s s.base.whole) (fun id st h => ⟨h.1, by simp⟩)
  | self =>
    rw [reference, hs.sees.self]
    exact Secures.map (hstep.faced s d _ (hs.faces_whole href)) (fun id st h => ⟨h.1, by simp⟩)
  | named name =>
    rw [reference, hs.sees.named name ((hc.inside d hs.known).confined way name href)]
    cases hl : Keyed.get? name (d.namesIn way) with
    | none =>
      refine Secures.pure (fun st h => ⟨h.1, fun name' hname => ?_⟩)
      obtain rfl := Reference.named.inj hname
      exact ⟨fun id hid => absurd hid (Option.not_mem_none id), fun _ => hl⟩
    | some l =>
      refine Secures.map (hstep.faced s d l (hs.faces_named href hl)) (fun id st h =>
        ⟨h.1, fun name' hname => ?_⟩)
      obtain rfl := Reference.named.inj hname
      refine ⟨fun id' hid => ?_, fun h => absurd h (Option.some_ne_none id)⟩
      obtain rfl := Option.some.inj hid
      exact ⟨l, hl, h.2⟩
  | grammar scope =>
    refine openGrammar_bind_resolves hinv hc hs scope
      (Secures.pure (fun st h => ⟨h.1, by simp⟩)) (fun o ho => ?_)
    exact Secures.map (hstep.faced o.sight o.self o.self.whole ⟨ho [], rfl, rfl⟩) (fun id st h =>
      ⟨h.1, by simp⟩)
  | namedIn scope name =>
    refine openGrammar_bind_resolves hinv hc hs scope
      (Secures.pure (fun st h => ⟨h.1, by simp⟩)) (fun o ho => ?_)
    dsimp only
    cases hl : Keyed.get? name o.self.locatedEntries with
    | none => exact Secures.pure (fun st h => ⟨h.1, by simp⟩)
    | some l =>
      obtain ⟨hsite, hrule⟩ := get?_locateEntries hl
      exact Secures.map (hstep.faced o.sight o.self l ((ho _).faces hsite hrule)) (fun id st h =>
        ⟨h.1, by simp⟩)

/-- **A rule inside a rule** leads to what its name means, if it refers to a named rule. -/
theorem inner_resolves (hinv : Inventoried inventory catalog root)
    (hc : catalog.KeepsNames root) (hstep : StepResolves inventory underWay room catalog root step)
    (hs : Looks inventory catalog root s d way way)
    (hrefers : ∀ ref, l.rule.refersTo? = some ref → d.Refers way ref)
    (hl : l.rule.reference = none → Faces inventory catalog root s d l) :
    Resolves inventory underWay room catalog root (fun st => st.HasNumber s.base.site)
      (inner catalog root step s l)
      (fun id? st => Leads st.numbers st.table (d.namesIn way) l id?) := by
  unfold inner
  dsimp only
  cases htext : l.rule.reference with
  | none =>
    have hname : l.rule.refersTo? = none := by rw [RuleDefinition.refersTo?, htext]; rfl
    refine Secures.bind (Secures.map (hstep.faced s d l (hl htext)) (fun _ _ h => h.1))
      (fun id? => Secures.bind .get (fun c => .pure (fun st h => ⟨h, ?_, ?_⟩))) <;> simp [hname]
  | some text =>
    have href : l.rule.refersTo? = some (.ofText text) := by
      rw [RuleDefinition.refersTo?, htext]
      rfl
    have hname : ∀ name, l.rule.refersTo? = some (.named name) →
        Reference.ofText text = .named name :=
      fun name h => Option.some.inj (href.symm.trans h)
    refine Secures.bind (reference_resolves hinv hc hstep hs (hrefers _ href))
      (fun id? st hst h => ?_)
    obtain ⟨hlexical, h⟩ := h
    refine ⟨.refl st, hst.inOrder, hlexical, ?_, ?_⟩
    · intro name hmem id hid
      exact (h name (hname name hmem)).1 id (Option.filter_eq_some_iff.1 hid).1
    · intro name hmem hnone l hl
      cases id? with
      | none =>
        rw [(h name (hname name hmem)).2 rfl] at hl
        exact absurd hl (Option.not_mem_none l)
      | some id =>
        -- the rule was left out, so it is in the table already, and void
        obtain ⟨l', hl', hid⟩ := (h name (hname name hmem)).1 id rfl
        obtain rfl := Option.some.inj (hl'.symm.trans hl)
        have hvoid : (st.table.get? id).any (·.isVoid) = true := by
          simpa [Option.filter] using hnone
        obtain ⟨rule, hrule, hvoid⟩ := (Option.any_eq_true _ _).1 hvoid
        exact ⟨id, rule, hid, hrule, hvoid⟩

theorem lasts_leads (names : List (String × Located)) (p : Located) (id? : Option RuleId) :
    Lasts (fun st => Leads st.numbers st.table names p id?) :=
  fun _ _ hextends h => h.mono hextends.numbers hextends.rules

/-- **The rules inside a rule** lead to what their names mean. -/
theorem inside_resolves (hinv : Inventoried inventory catalog root)
    (hc : catalog.KeepsNames root) (hstep : StepResolves inventory underWay room catalog root step)
    (hs : Looks inventory catalog root s d way way) {rules : List Located}
    (hrefers : ∀ l ∈ rules, ∀ ref, l.rule.refersTo? = some ref → d.Refers way ref)
    (hrules : ∀ l ∈ rules, l.rule.reference = none → Faces inventory catalog root s d l) :
    Resolves inventory underWay room catalog root (fun st => st.HasNumber s.base.site)
      (inside catalog root step s rules)
      (fun i st => ∃ ids, i.rules = ids.filterMap id ∧
        List.Forall₂ (Leads st.numbers st.table (d.namesIn way)) rules ids) := by
  unfold inside
  refine Secures.bind (Secures.mapM_forall₂ (fun l hl => ?_) (lasts_leads (d.namesIn way)))
    (fun ids => .pure (fun st h => ⟨h.1.1, ids, rfl, h.2⟩))
  have hinner := inner_resolves hinv hc hstep hs (hrefers l hl) (hrules l hl)
  exact (hinner.still (lasts_hasNumber s.base.site) (fun _ h => h.2)).mono (fun _ h => h)
    (fun _ _ h => ⟨⟨h.1.1, h.2⟩, h.1.2⟩)

/-- Adding a rule for a group. -/
theorem add_resolves (name contentName : Option ScopeTemplate) (within : Option RuleId) :
    Resolves inventory underWay room catalog root (AllTaken within.toList)
      (add ⟨name, contentName, .capture within⟩) (fun _ _ => True) := by
  rintro st hst ⟨hlexical, hwithin⟩
  obtain ⟨hextends, horder, -⟩ := hst.inOrder.add (r := ⟨name, contentName, .capture within⟩) rfl
    (fun id hid => hwithin id (Option.mem_toList.2 hid))
  refine ⟨hextends, horder, hlexical.goOn hextends rfl (fun site id rule hid hrule => ?_), trivial⟩
  have hne : id ≠ st.table.next := (hst.inOrder.numbers _ hid).ne_next
  change (⟨st.table.rules.push _⟩ : RuleTable).get? id = some rule at hrule
  rw [RuleTable.get?_push, if_neg hne] at hrule
  exact ⟨hid, hrule⟩

/-- **The rules for the groups of a pattern.** -/
theorem captures_resolves (hstep : StepResolves inventory underWay room catalog root step)
    {site : Site} {list : CaptureList} {rules : List (Nat × RuleDefinition)}
    (hrules : ∀ p ∈ rules, Faces inventory catalog root s d ⟨site.inside (.capture list p.1), p.2⟩)
    (hrefused : ∀ p ∈ rules, groupLimit < p.1 → Refused inventory (.groupNumber p.1)) :
    Resolves inventory underWay room catalog root (fun st => st.HasNumber s.base.site)
      (captures step s site list rules) (fun _ st => st.HasNumber s.base.site) := by
  have hadd : ∀ group (r : RuleDefinition) within,
      Resolves inventory underWay room catalog root
        (fun st => AllTaken within.toList st ∧ st.HasNumber s.base.site) (do
          let id ← add ⟨r.name.map .ofText, r.contentName.map .ofText, .capture within⟩
          return (group, id) : Compile (Nat × RuleId)) (fun _ st => st.HasNumber s.base.site) := by
    intro group r within
    refine Secures.bind (((add_resolves _ _ within).mono (fun _ h => ⟨h.1, h.2.1⟩)
      (fun _ _ h => h)).still (lasts_hasNumber s.base.site) (fun _ h => h.2.2)) (fun id => ?_)
    exact .pure (fun _ h => ⟨h.1.1, h.2⟩)
  unfold captures
  dsimp only
  split
  · next group r hfind =>
    have hlimit := List.find?_some hfind
    exact .throw (hrefused (group, r) (List.mem_of_find?_eq_some hfind)
      (of_decide_eq_true hlimit))
  · refine Secures.bind (Secures.mapM_forall₂ (R := fun _ _ _ => True) (fun p hp => ?_)
      (fun _ _ _ _ _ h => h)) (fun ids => .pure (fun _ h => h.1))
    have hl := hrules p hp
    obtain ⟨group, r⟩ := p
    dsimp only
    split
    · have hstep := ((hstep.faced s d _ hl).still (lasts_hasNumber s.base.site)
        (fun _ h => h.2)).ordered
      refine Secures.bind (hstep.map (R := fun within st =>
        st.Lexical catalog root (fun _ => False) ∧ AllTaken within.toList st ∧
          st.HasNumber s.base.site) (fun id st h => ⟨h.1.1.1, fun id' hid => ?_, h.1.2⟩))
        (fun within => (hadd group r within).mono (fun _ h => h) (fun _ _ h => ⟨h, trivial⟩))
      obtain rfl := List.mem_singleton.1 hid
      exact h.2.numbers _ h.1.1.2
    · refine Secures.bind (.pure (a := none) (fun st h => ⟨h.1, ?_, h.2⟩))
        (fun within => (hadd group r within).mono (fun _ h => h) (fun _ _ h => ⟨h, trivial⟩))
      exact fun id hid => absurd hid List.not_mem_nil

/-- The rules for the groups of a pattern of a rule stand in that rule. -/
theorem capturesOr_resolves (hinv : Inventoried inventory catalog root) (hd : d.DistinctKeys)
    (hstep : StepResolves inventory underWay room catalog root step)
    (hl : Faces inventory catalog root s d l) (honly : ¬ l.rule.holdsOnly = true)
    {list : CaptureList} {own : Option (List (Nat × RuleDefinition))}
    (hown : ∀ rules ∈ own, l.rule.capturesFor list = some rules) :
    Resolves inventory underWay room catalog root (fun st => st.HasNumber s.base.site)
      (capturesOr step s l list own) (fun _ st => st.HasNumber s.base.site) := by
  have hlisted : ∀ {list : CaptureList} {rules : List (Nat × RuleDefinition)},
      l.rule.capturesFor list = some rules →
      Resolves inventory underWay room catalog root (fun st => st.HasNumber s.base.site)
        (captures step s l.site list rules) (fun _ st => st.HasNumber s.base.site) := by
    intro list rules hrules
    obtain ⟨hmem, -⟩ := l.mem_parts_of_capturesFor hrules
    refine captures_resolves (d := d) hstep (fun p hp => ?_)
      (fun p hp hlimit => ⟨l, hl.mem hinv, rules, hmem, p, hp, hlimit, rfl⟩)
    have hfaces := (hl.stay honly).faces_capture hd hl.written hrules hp
    rwa [← hl.site] at hfaces
  unfold capturesOr
  split
  · next rules => exact hlisted (hown rules rfl)
  · cases hcommon : l.rule.captures with
    | none =>
      exact captures_resolves (d := d) hstep (fun p hp => absurd hp List.not_mem_nil)
        (fun p hp => absurd hp List.not_mem_nil)
    | some rules => exact hlisted hcommon

/-- **What a rule does** is compiled so that all its references lead right. -/
theorem body_resolves (hinv : Inventoried inventory catalog root)
    (hc : catalog.KeepsNames root)
    (hstep : StepResolves inventory underWay room catalog root step)
    (hl : Faces inventory catalog root s d l) (number : RuleId) :
    Resolves inventory underWay room catalog root (fun st => st.HasNumber s.base.site)
      (body catalog root step s l number)
      (fun b st => LeadsInside st.numbers st.table (d.namesIn l.site.steps) l b) := by
  have hkeys := hc.keys d hl.looks.known
  have hrefers : ∀ p ∈ l.inner, ∀ ref, p.rule.refersTo? = some ref →
      d.Refers l.site.steps ref := by
    intro p hp ref href
    refine ⟨l.rule, hl.written, p, ?_, href⟩
    rwa [← hl.site]
  -- the rules of the list, with what is in sight inside the rule
  have hpatterns : ∀ {s' : Sight}, Looks inventory catalog root s' d l.site.steps l.site.steps →
      s'.base = s.base → l.inner = locatePatterns l.site (l.rule.patterns.getD []) →
      Resolves inventory underWay room catalog root (fun st => st.HasNumber s.base.site)
        (inside catalog root step s' (locatePatterns l.site (l.rule.patterns.getD [])))
        (fun i st => ∃ ids, i.rules = ids.filterMap id ∧
          List.Forall₂ (Leads st.numbers st.table (d.namesIn l.site.steps)) l.inner ids) := by
    intro s' hs' hbase hinner
    rw [hinner] at hrefers ⊢
    rw [← hbase]
    refine inside_resolves hinv hc hstep hs' hrefers (fun l' hl' _ => ?_)
    refine hs'.faces_pattern hl.written ?_
    rwa [← hl.site]
  unfold body
  dsimp only
  split
  · next pattern opening hpattern =>
    have honly : ¬ l.rule.holdsOnly = true := by simp [RuleDefinition.holdsOnly, hpattern]
    refine Secures.bind (capturesOr_resolves hinv hkeys hstep hl honly
      (fun rules h => absurd h (Option.not_mem_none rules))) (fun captures => ?_)
    refine .pure (fun st h => ⟨h.1, [], rfl, ?_⟩)
    rw [Located.inner_of_pattern hpattern]
    exact .nil
  · next opening hpattern hopening =>
    have honly : ¬ l.rule.holdsOnly = true := by simp [RuleDefinition.holdsOnly, hopening]
    have hinner := Located.inner_of_opening hpattern hopening
    refine Secures.bind (capturesOr_resolves hinv hkeys hstep hl honly (fun _ h => h))
      (fun _ => ?_)
    split
    · refine Secures.bind (capturesOr_resolves hinv hkeys hstep hl honly (fun _ h => h))
        (fun _ => ?_)
      refine Secures.bind (hpatterns (hl.stay honly) rfl hinner) (fun i => .pure (fun st h => ?_))
      exact h
    · refine Secures.bind (capturesOr_resolves hinv hkeys hstep hl honly (fun _ h => h))
        (fun _ => ?_)
      refine Secures.bind (hpatterns (hl.stay honly) rfl hinner) (fun i => .pure (fun st h => ?_))
      exact h
  · next hpattern hopening =>
    have honly : l.rule.holdsOnly = true := by simp [RuleDefinition.holdsOnly, hpattern, hopening]
    have hlooks := hl.inside hinv (hc.inside d hl.looks.known) honly
    split
    · next text hnone htext =>
      have hinner := Located.inner_of_reference hpattern hopening hnone htext
      rw [hinner] at hrefers
      refine Secures.bind (inside_resolves hinv hc hstep hlooks hrefers
        (fun l' hl' href => ?_)) (fun i => .pure (fun st h => ⟨h.1, ?_⟩))
      · rw [List.mem_singleton.1 hl'] at href
        cases href
      · obtain ⟨ids, hids, hleads⟩ := h.2
        exact ⟨ids, hids, hinner ▸ hleads⟩
    · next hlist =>
      have hinner := Located.inner_of_patterns hpattern hopening (fun text => hlist text)
      exact Secures.bind (hpatterns hlooks rfl hinner) (fun i => .pure (fun st h => h))

end Parts

/-! ## Compiling a rule -/

section Rules

variable {inventory : List Located} {catalog : Catalog} {root : Definition}

/-- A rule that has its number is not compiled again. -/
theorem rule_numbered (depth : Nat) (underWay : RuleId → Prop) (s : Sight) (l : Located) :
    Resolves inventory underWay depth catalog root (fun st => st.HasNumber l.site)
      (rule catalog root depth s l) (fun id st => (l.site, id) ∈ st.numbers) := by
  rintro st hst ⟨hlexical, id, hid⟩
  cases depth with
  | zero => exact absurd hst.room (Nat.not_lt_zero _)
  | succ depth =>
    rw [rule, EStateM.run_bind, EStateM.run_get]
    dsimp only
    cases hnumber : Keyed.get? l.site st.numbers with
    | none => exact absurd (List.mem_map_of_mem hid) (Keyed.not_mem_keys_of_get?_eq_none hnumber)
    | some id' => exact ⟨.refl st, hst.inOrder, hlexical, Keyed.mem_of_get? hnumber⟩

/-- **Compiling a rule resolves** all that it comes by. It may be the rule whose number the base of
a grammar is still waiting for. The induction is on the depth, as for what compiling secures. -/
theorem rule_resolves (hinv : Inventoried inventory catalog root)
    (hc : catalog.KeepsNames root) (depth : Nat) (underWay : RuleId → Prop)
    {pending : Site → Prop} {s : Sight} {d : Definition} {l : Located}
    (hpending : ∀ site, pending site → site = l.site) (hl : Faces inventory catalog root s d l) :
    Secures inventory underWay depth
      (fun st => st.Lexical catalog root pending ∧
        (st.HasNumber s.base.site ∨ s.base.site = l.site))
      (rule catalog root depth s l)
      (fun id st => st.Lexical catalog root (fun _ => False) ∧ (l.site, id) ∈ st.numbers) := by
  induction depth generalizing underWay pending s d l with
  | zero => exact fun st hst _ => absurd hst.room (Nat.not_lt_zero _)
  | succ depth ih =>
    rintro st hst ⟨hlexical, hbase⟩
    cases hnumber : Keyed.get? l.site st.numbers with
    | some id =>
      have hid := Keyed.mem_of_get? hnumber
      refine rule_numbered (depth + 1) underWay s l st hst
        ⟨hlexical.mono (fun site h => .inl ?_), id, hid⟩
      exact hpending site h ▸ ⟨id, hid⟩
    | none =>
      have hmem := hl.mem hinv
      have hstep : StepResolves inventory (fun id => underWay id ∨ id = st.table.next) depth
          catalog root (rule catalog root depth) :=
        ⟨fun s d l hl => (ih _ (fun _ h => h.elim) hl).mono (fun _ h => ⟨h.1, .inl h.2⟩)
          (fun _ _ h => h), rule_numbered depth _⟩
      have hbody := (body_resolves hinv hc hstep hl st.table.next).and
        (body_secures hinv (rule_secures hinv depth _) hl.looks.within hmem st.table.next)
      refine rule_takes hmem hnumber hbody (fun htake => ?_)
        (fun st' r hsecured horder hid hdone => ⟨?_, hdone.numbers hid⟩) st hst rfl
      · refine ⟨⟨hlexical.take hpending htake, ?_⟩, trivial⟩
        obtain h | h := hbase
        · exact htake.hasNumber h
        · exact ⟨st.table.next, h ▸ List.mem_cons_self⟩
      · obtain ⟨hlexical', hleads⟩ := hsecured
        refine hlexical'.complete (horder.taken _ (.inr rfl)) hdone horder.ids hl.looks.known
          hl.written (hl.site ▸ hid) ?_
        rw [← hl.site]
        exact hleads

/-! ## Compiling a grammar -/

/-- **Compiling the injections of the grammar.** -/
theorem ownInjections_resolves (hinv : Inventoried inventory catalog root)
    (hc : catalog.KeepsNames root) {underWay : RuleId → Prop} {room : Nat} {step : Step}
    (hstep : StepResolves inventory underWay room catalog root step) :
    Resolves inventory underWay room catalog root (fun st => st.HasNumber root.site)
      (ownInjections step root) (fun _ st => st.HasNumber root.site) := by
  have hlooks : ∀ place, Looks inventory catalog root (Opened.sight ⟨root, root⟩) root [] place :=
    Looks.top hinv (.inl rfl) (.inl rfl)
  unfold ownInjections
  refine Secures.bind (Secures.mapM_forall₂ (R := fun _ _ _ => True) (fun p hp => ?_)
    (fun _ _ _ _ _ h => h)) (fun found => .pure (fun _ h => h.1))
  obtain ⟨q, hq, rfl⟩ := List.mem_map.1 ((Order.perm_sort _ _).mem_iff.1 hp)
  have hfaces : Faces inventory catalog root (Opened.sight ⟨root, root⟩) root
      ⟨root.site.inside (.injection q.1), q.2⟩ :=
    (hlooks _).faces rfl (Keyed.get?_of_mem (hc.keys root (.inl rfl)).selectors hq)
  have hrule := (hstep.faced _ root _ hfaces).still (lasts_hasNumber root.site) (fun _ h => h.2)
  exact Secures.bind hrule (fun id => .pure (fun st h => ⟨⟨h.1.1, h.2⟩, trivial⟩))

/-- **Compiling a grammar that is injected.** Unless it was opened before, it is its own base, and
takes its number at once, since it has a selector. -/
theorem injectedGrammar_resolves (hinv : Inventoried inventory catalog root)
    (hc : catalog.KeepsNames root) {underWay : RuleId → Prop} {depth : Nat}
    {scope : String} (hscope : scope ∈ catalog.injectionsInto root.scopeName) :
    Resolves inventory underWay depth catalog root (fun st => st.HasNumber root.site)
      (injectedGrammar catalog root (rule catalog root depth) scope) (fun _ _ => True) := by
  unfold injectedGrammar
  refine Secures.bind (((openGrammar_resolves hinv hc scope none).mono
    (fun st h => ⟨h.1, fun b hb => absurd hb (Option.not_mem_none b)⟩) (fun _ _ h => h)).still
      (lasts_hasNumber root.site) (fun _ h => h.2)) (fun o? st hst h => ?_)
  obtain ⟨⟨hlexical, hopened⟩, hroot⟩ := h
  cases o? with
  | none =>
    refine ⟨.refl st, hst.inOrder, hlexical.mono (fun site h => ?_), trivial⟩
    obtain ⟨-, o, ho, -⟩ := h
    exact absurd ho (Option.not_mem_none o)
  | some o =>
    obtain ⟨hname, hself, hbase, hnumber⟩ := hopened o rfl
    have hfaces : Faces inventory catalog root o.sight o.self o.self.whole :=
      ⟨.top hinv hself hbase [], rfl, rfl⟩
    have hpending : ∀ site, (none = (none : Option Definition) ∧
        ∃ o' ∈ some o, site = o'.self.site) → site = o.self.whole.site := by
      rintro site ⟨-, o', ho', rfl⟩
      exact Option.some.inj ho' ▸ rfl
    dsimp only
    cases hsome : o.self.injectionSelector with
    | none =>
      -- only the grammar that is compiled may be injected without a selector: it has its number
      obtain hself | ⟨hgrammar, -⟩ := hself
      · refine ⟨.refl st, hst.inOrder, hlexical.mono (fun site h => .inl ?_), trivial⟩
        rw [hpending site h, hself]
        exact hroot
      · have := hc.selectors scope hscope o.self (hname ▸ hgrammar)
        simp [hsome] at this
    | some selector =>
      refine Secures.bind (rule_resolves hinv hc depth underWay hpending hfaces)
        (fun id => .pure (fun _ h => ⟨h.1, trivial⟩)) st hst ⟨hlexical, ?_⟩
      exact hnumber.imp_right (fun h => congrArg Definition.site h.2)

end Rules

end Compile

end Highlight.Grammar
