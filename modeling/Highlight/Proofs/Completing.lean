import Highlight.Proofs.Numbers
import Highlight.Proofs.Sites

/-!
# Compiling leaves no hole

The rules of a grammar lead to each other in circles, within the grammar and by way of others, and
compilation follows them all. It comes to an end because a rule that has a number is not entered
again: whatever it enters stands in the inventory of the grammar and the catalog, and each rule that
is entered takes one more of the sites in it. So the depth that compilation is given is never used
up, and the only thing that it can fail for is the number of a group that is too great.

Each step **secures** what it yields. It goes on from a state that is in order to another with the
same numbers under way, and what it yields refers to numbers that are taken. A fact of that kind
lasts however compilation goes on, so it is still there when the rule that it was found for is
completed.
-/

namespace Highlight.Grammar

/-! ## The lists of captures of a rule -/

/-- The captures that a rule has for each of its patterns, or for all of them. -/
def RuleDefinition.capturesFor (r : RuleDefinition) :
    CaptureList → Option (List (Nat × RuleDefinition))
  | .common => r.captures
  | .opening => r.openingCaptures
  | .closing => r.closingCaptures
  | .continuing => r.continuingCaptures

/-- The captures that a rule has for a list, and what they say, stand with the rule. -/
theorem Located.mem_parts_of_capturesFor (l : Located) {list : CaptureList}
    {rules : List (Nat × RuleDefinition)} (h : l.rule.capturesFor list = some rules) :
    rules ∈ l.rule.captureLists ∧ ∀ p ∈ locateCaptures l.site list rules, p ∈ l.parts := by
  cases list <;> rw [RuleDefinition.capturesFor] at h <;>
    simp +contextual [RuleDefinition.captureLists, parts, h]

open Compilation

namespace Compile

/-! ## Steps that secure what they yield -/

/-- **Compiling is refused** for the number of a group of some rule. -/
def Refused (inventory : List Located) (e : CompileError) : Prop :=
  ∃ l ∈ inventory, ∃ rules ∈ l.rule.captureLists, ∃ p ∈ rules,
    groupLimit < p.1 ∧ e = .groupNumber p.1

/-- A state is in order, and fewer than some number of sites are left. -/
structure Fit (inventory : List Located) (underWay : RuleId → Prop) (room : Nat)
    (st : Compilation) : Prop where
  /-- It is in order. -/
  inOrder : st.InOrder inventory underWay
  /-- Few sites are left. -/
  room : unvisited (inventory.map (·.site)) (st.numbers.map (·.1)) < room

/-- **A step secures** something of what it yields, from a state where something else holds. -/
def Secures {α : Type} (inventory : List Located) (underWay : RuleId → Prop) (room : Nat)
    (P : Compilation → Prop) (x : Compile α) (Q : α → Compilation → Prop) : Prop :=
  ∀ st, Fit inventory underWay room st → P st → match x.run st with
    | .ok a st' => st.Extends st' ∧ st'.InOrder inventory underWay ∧ Q a st'
    | .error e _ => Refused inventory e

/-- What holds of a state **lasts** if it holds however compilation goes on. -/
def Lasts (P : Compilation → Prop) : Prop := ∀ st st', st.Extends st' → P st → P st'

/-- All of some numbers are taken. -/
def AllTaken (ids : List RuleId) (st : Compilation) : Prop := ∀ id ∈ ids, st.table.Taken id

/-- All rules for groups have numbers of such rules. -/
def AllCaptures (captures : CaptureRules) (st : Compilation) : Prop :=
  ∀ p ∈ captures.rules, st.table.HasCapture p.2

theorem lasts_allTaken (ids : List RuleId) : Lasts (AllTaken ids) :=
  fun _ _ hextends h id hid => hextends.taken (h id hid)

theorem lasts_allCaptures (captures : CaptureRules) : Lasts (AllCaptures captures) :=
  fun _ _ hextends h p hp => hextends.hasCapture (h p hp)

theorem Lasts.and {P P' : Compilation → Prop} (h : Lasts P) (h' : Lasts P') :
    Lasts (fun st => P st ∧ P' st) :=
  fun st st' hextends hst => ⟨h st st' hextends hst.1, h' st st' hextends hst.2⟩

theorem Fit.goOn {inventory : List Located} {underWay : RuleId → Prop} {room : Nat}
    {st st' : Compilation} (h : Fit inventory underWay room st) (hextends : st.Extends st')
    (horder : st'.InOrder inventory underWay) : Fit inventory underWay room st' :=
  ⟨horder, lt_of_le_of_lt (unvisited_le (List.map_subset _ hextends.numbers)) h.room⟩

section Secures

variable {inventory : List Located} {underWay : RuleId → Prop} {room : Nat} {α β : Type}
  {P P' : Compilation → Prop} {x : Compile α} {Q Q' : α → Compilation → Prop}

namespace Secures

theorem pure {a : α} (h : ∀ st, P st → Q a st) :
    Secures inventory underWay room P (Pure.pure a : Compile α) Q :=
  fun st hst hP => ⟨.refl st, hst.inOrder, h st hP⟩

theorem get : Secures inventory underWay room P (MonadState.get : Compile Compilation)
    (fun _ => P) :=
  fun st hst hP => ⟨.refl st, hst.inOrder, hP⟩

theorem throw {e : CompileError} (h : Refused inventory e) :
    Secures inventory underWay room P (MonadExcept.throw e : Compile α) Q := fun _ _ _ => h

theorem bind {f : α → Compile β} {R : β → Compilation → Prop}
    (hx : Secures inventory underWay room P x Q)
    (hf : ∀ a, Secures inventory underWay room (Q a) (f a) R) :
    Secures inventory underWay room P (x >>= f) R := by
  intro st hst hP
  have hfirst := hx st hst hP
  rw [EStateM.run_bind]
  cases hrun : x.run st with
  | error e st' => simpa only [hrun] using hfirst
  | ok a st' =>
    simp only [hrun] at hfirst
    obtain ⟨hextends, horder, hQ⟩ := hfirst
    have hsecond := hf a st' (hst.goOn hextends horder) hQ
    dsimp only
    cases hrun' : (f a).run st' with
    | error e st'' => simpa only [hrun'] using hsecond
    | ok b st'' =>
      simp only [hrun'] at hsecond
      exact ⟨hextends.trans hsecond.1, hsecond.2⟩

theorem mono (h : Secures inventory underWay room P x Q) (hpre : ∀ st, P' st → P st)
    (hpost : ∀ a st, Q a st → Q' a st) : Secures inventory underWay room P' x Q' := by
  intro st hst hP
  have := h st hst (hpre st hP)
  cases hrun : x.run st with
  | error e st' => simpa only [hrun] using this
  | ok a st' =>
    simp only [hrun] at this
    exact ⟨this.1, this.2.1, hpost a st' this.2.2⟩

theorem map {f : α → β} {R : β → Compilation → Prop}
    (hx : Secures inventory underWay room P x Q) (hf : ∀ a st, Q a st → R (f a) st) :
    Secures inventory underWay room P (f <$> x) R := by
  rw [map_eq_pure_bind]
  exact hx.bind (fun a => .pure (hf a))

/-- What lasts still holds after a step. -/
theorem frame (h : Secures inventory underWay room P x Q) (hP : Lasts P) :
    Secures inventory underWay room P x (fun a st => P st ∧ Q a st) := by
  intro st hst hst'
  have := h st hst hst'
  cases hrun : x.run st with
  | error e st' => simpa only [hrun] using this
  | ok a st' =>
    simp only [hrun] at this
    exact ⟨this.1, this.2.1, hP st st' this.1 hst', this.2.2⟩

/-- What is secured of the result of each step for a list is secured of all of them. -/
theorem mapM {f : α → Compile β} {list : List α} {R : β → Compilation → Prop}
    (h : ∀ a ∈ list, Secures inventory underWay room (fun _ => True) (f a) R)
    (hR : ∀ b, Lasts (R b)) :
    Secures inventory underWay room (fun _ => True) (list.mapM f)
      (fun bs st => ∀ b ∈ bs, R b st) := by
  induction list with
  | nil => exact .pure (fun st _ b hb => absurd hb List.not_mem_nil)
  | cons a list ih =>
    obtain ⟨ha, hlist⟩ := List.forall_mem_cons.1 h
    rw [List.mapM_cons]
    refine ha.bind (fun b => ?_)
    refine (((ih hlist).mono (fun _ _ => trivial) (fun _ _ h => h)).frame (hR b)).bind
      (fun bs => .pure (fun st hst => ?_))
    exact List.forall_mem_cons.2 hst

/-- What is secured of the result of a step for the value of an option is secured of it. -/
theorem optionMapM {f : α → Compile β} {o : Option α} {R : β → Compilation → Prop}
    (h : ∀ a ∈ o, Secures inventory underWay room P (f a) R) :
    Secures inventory underWay room P (o.mapM f) (fun b? st => ∀ b ∈ b?, R b st) := by
  cases o with
  | none => exact .pure (fun st _ b hb => absurd hb (Option.not_mem_none b))
  | some a =>
    refine (h a rfl).map (fun b st hb b' hb' => ?_)
    obtain rfl := Option.some.inj hb'
    exact hb

end Secures

end Secures

/-! ## What the steps of a compilation secure -/

/-- All grammars that compilation can come by stand in an inventory. -/
structure Inventoried (inventory : List Located) (catalog : Catalog) (root : Definition) :
    Prop where
  /-- The inventory is closed. -/
  closed : Closed inventory
  /-- The grammar that is compiled. -/
  root : root.Within inventory
  /-- The grammars of the catalog. -/
  grammars : ∀ scope d, catalog.grammar? scope = some d → d.Within inventory

/-- How rules are compiled secures the number that a rule gets. -/
def StepSecures (inventory : List Located) (underWay : RuleId → Prop) (room : Nat)
    (step : Step) : Prop :=
  ∀ s l, s.Within inventory → l ∈ inventory →
    Secures inventory underWay room (fun _ => True) (step s l) (fun id st => st.table.Taken id)

section Parts

variable {inventory : List Located} {underWay : RuleId → Prop} {room : Nat} {catalog : Catalog}
  {root : Definition} {step : Step} {s : Sight} {l : Located}

/-- **What opening a grammar does**: the state stays, or one more grammar is opened. What it yields
stands in the inventory if all that was opened before does. -/
theorem openGrammar_run (hinv : Inventoried inventory catalog root) (scope : String)
    {base : Option Definition} (hbase : ∀ b ∈ base, b.Within inventory) {st : Compilation}
    (hst : ∀ scope o, Keyed.get? scope st.opened = some o → o.Within inventory) :
    ∃ o? : Option Opened, (∀ o ∈ o?, o.Within inventory) ∧
      ((openGrammar catalog root scope base).run st = .ok o? st ∨
        ∃ o : Opened, o.Within inventory ∧ (openGrammar catalog root scope base).run st =
          .ok o? { st with opened := (scope, o) :: st.opened }) := by
  have hsome : ∀ o : Opened, o.Within inventory → ∀ o' ∈ some o, o'.Within inventory :=
    fun o ho o' ho' => Option.some.inj ho' ▸ ho
  unfold openGrammar
  by_cases hscope : scope = root.scopeName
  · rw [if_pos hscope]
    exact ⟨_, hsome _ ⟨hinv.root, hinv.root⟩, .inl rfl⟩
  rw [if_neg hscope, EStateM.run_bind, EStateM.run_get]
  dsimp only
  cases hopened : Keyed.get? scope st.opened with
  | some o => exact ⟨_, hsome o (hst scope o hopened), .inl rfl⟩
  | none =>
    cases hd : catalog.grammar? scope with
    | none => exact ⟨none, fun o ho => absurd ho (Option.not_mem_none o), .inl rfl⟩
    | some d =>
      have hwithin : Opened.Within inventory ⟨d, base.getD d⟩ := by
        refine ⟨hinv.grammars scope d hd, ?_⟩
        cases base with
        | none => exact hinv.grammars scope d hd
        | some b => exact hbase b rfl
      exact ⟨_, hsome _ hwithin, .inr ⟨_, hwithin, rfl⟩⟩

theorem openGrammar_secures (hinv : Inventoried inventory catalog root) (scope : String)
    {base : Option Definition} (hbase : ∀ b ∈ base, b.Within inventory) :
    Secures inventory underWay room (fun _ => True) (openGrammar catalog root scope base)
      (fun o _ => ∀ o' ∈ o, o'.Within inventory) := by
  intro st hst _
  obtain ⟨o?, ho, hrun | ⟨o, hwithin, hrun⟩⟩ :=
    openGrammar_run hinv scope hbase hst.inOrder.opened
  · rw [hrun]
    exact ⟨.refl st, hst.inOrder, ho⟩
  · rw [hrun]
    exact ⟨⟨fun _ _ h => h, Nat.le_refl _, List.Subset.refl _⟩, hst.inOrder.opening hwithin, ho⟩

/-- Adding a rule for a group, by which a number that is taken reads it on. -/
theorem add_secures (name contentName : Option ScopeTemplate) (within : Option RuleId) :
    Secures inventory underWay room (AllTaken within.toList)
      (add ⟨name, contentName, .capture within⟩) (fun id st => st.table.HasCapture id) :=
  fun _ hst hwithin => hst.inOrder.add (r := ⟨name, contentName, .capture within⟩) rfl
    (fun id hid => hwithin id (Option.mem_toList.2 hid))

theorem captures_secures (hstep : StepSecures inventory underWay room step)
    (hs : s.Within inventory) {site : Site} {list : CaptureList}
    {rules : List (Nat × RuleDefinition)}
    (hrules : ∀ l ∈ locateCaptures site list rules, l ∈ inventory)
    (hrefused : ∀ p ∈ rules, groupLimit < p.1 → Refused inventory (.groupNumber p.1)) :
    Secures inventory underWay room (fun _ => True) (captures step s site list rules)
      AllCaptures := by
  have hadd : ∀ group (r : RuleDefinition) within, Secures inventory underWay room
      (AllTaken within.toList) (do
        let id ← add ⟨r.name.map .ofText, r.contentName.map .ofText, .capture within⟩
        return (group, id) : Compile (Nat × RuleId)) (fun p st => st.table.HasCapture p.2) :=
    fun group r within => (add_secures _ _ within).bind (fun _ => .pure (fun _ h => h))
  unfold captures
  dsimp only
  split
  · next group r hfind =>
    have hlimit := List.find?_some hfind
    exact .throw (hrefused (group, r) (List.mem_of_find?_eq_some hfind)
      (of_decide_eq_true hlimit))
  · have hlasts : ∀ p : Nat × RuleId, Lasts (fun st => st.table.HasCapture p.2) :=
      fun p st st' hextends h => hextends.hasCapture h
    refine Secures.bind (.mapM (fun p hp => ?_) hlasts) (fun ids => .pure (fun _ h => h))
    obtain ⟨group, r⟩ := p
    dsimp only
    split
    · have hl := hrules _ (List.mem_map_of_mem hp)
      refine Secures.bind ((hstep s _ hs hl).map (fun id st hid id' hid' => ?_))
        (fun within => hadd group r within)
      exact List.mem_singleton.1 hid' ▸ hid
    · exact Secures.bind (.pure (a := none) (fun _ _ id hid => absurd hid List.not_mem_nil))
        (fun within => hadd group r within)

/-- The rules for the groups of a pattern stand in the inventory with the rule that has it. -/
theorem capturesOr_secures (hstep : StepSecures inventory underWay room step)
    (hclosed : Closed inventory) (hs : s.Within inventory) (hl : l ∈ inventory)
    {list : CaptureList} {own : Option (List (Nat × RuleDefinition))}
    (hown : ∀ rules ∈ own, l.rule.capturesFor list = some rules) :
    Secures inventory underWay room (fun _ => True) (capturesOr step s l list own)
      AllCaptures := by
  have hlisted : ∀ {list : CaptureList} {rules : List (Nat × RuleDefinition)},
      l.rule.capturesFor list = some rules →
      Secures inventory underWay room (fun _ => True) (captures step s l.site list rules)
        AllCaptures := by
    intro list rules hrules
    obtain ⟨hmem, hparts⟩ := l.mem_parts_of_capturesFor hrules
    exact captures_secures hstep hs (fun p hp => hclosed l hl p (hparts p hp))
      (fun p hp hlimit => ⟨l, hl, rules, hmem, p, hp, hlimit, rfl⟩)
  unfold capturesOr
  split
  · next rules => exact hlisted (hown rules rfl)
  · cases hcommon : l.rule.captures with
    | none =>
      exact captures_secures hstep hs (fun p hp => absurd hp List.not_mem_nil)
        (fun p hp => absurd hp List.not_mem_nil)
    | some rules => exact hlisted hcommon

theorem reference_secures (hinv : Inventoried inventory catalog root)
    (hstep : StepSecures inventory underWay room step) (hs : s.Within inventory)
    (ref : Reference) :
    Secures inventory underWay room (fun _ => True) (reference catalog root step s ref)
      (fun id? => AllTaken id?.toList) := by
  have hnamed : ∀ {s : Sight} {entries : List (String × Located)} (name : String),
      s.Within inventory → (∀ p ∈ entries, p.2 ∈ inventory) →
      Secures inventory underWay room (fun _ => True) ((Keyed.get? name entries).mapM (step s))
        (fun id? => AllTaken id?.toList) := by
    intro s entries name hs hentries
    refine (Secures.optionMapM (fun l hl => ?_)).mono (fun _ h => h)
      (fun id? st h id hid => h id (Option.mem_toList.1 hid))
    exact hstep s l hs (hentries _ (Keyed.mem_of_get? hl))
  -- what is opened stands in the inventory, whatever the state is by then
  have hopen : ∀ {α : Type} {scope : String} {f : Option Opened → Compile α}
      {Q : α → Compilation → Prop},
      (∀ o : Option Opened, (∀ o' ∈ o, o'.Within inventory) →
        Secures inventory underWay room (fun _ => True) (f o) Q) →
      Secures inventory underWay room (fun _ => True)
        (openGrammar catalog root scope (some s.base) >>= f) Q := by
    intro α scope f Q hf
    refine (openGrammar_secures hinv scope (fun b hb => Option.some.inj hb ▸ hs.base)).bind
      (fun o st hst ho => hf o ho st hst trivial)
  have hnone : ∀ id ∈ (none : Option RuleId).toList, ∀ st : Compilation, st.table.Taken id :=
    fun id hid => absurd hid List.not_mem_nil
  unfold reference
  split
  · exact hnamed _ hs hs.entries
  · exact hnamed _ hs hs.entries
  · exact hnamed _ hs hs.entries
  · refine hopen (fun o ho => ?_)
    split
    · next o =>
      have ho := ho o rfl
      refine (hstep _ _ ho.sight ho.self.whole).map (fun id st hid id' hid' => ?_)
      exact List.mem_singleton.1 hid' ▸ hid
    · exact .pure (fun st _ id hid => hnone id hid st)
  · refine hopen (fun o ho => ?_)
    split
    · next o =>
      have ho := ho o rfl
      exact hnamed _ ho.sight (fun p hp => ho.self.entry hp)
    · exact .pure (fun st _ id hid => hnone id hid st)

theorem inner_secures (hinv : Inventoried inventory catalog root)
    (hstep : StepSecures inventory underWay room step) (hs : s.Within inventory)
    (hl : l.rule.reference = none → l ∈ inventory) :
    Secures inventory underWay room (fun _ => True) (inner catalog root step s l)
      (fun id? => AllTaken id?.toList) := by
  have hfilter : ∀ id? : Option RuleId, Secures inventory underWay room (AllTaken id?.toList)
      (do
        let table := (← MonadState.get).table
        return id?.filter (fun id => !(table.get? id).any (·.isVoid)) : Compile (Option RuleId))
      (fun id? => AllTaken id?.toList) := by
    refine fun id? => Secures.bind .get (fun c => .pure (fun st h id hid => ?_))
    have hid := (Option.filter_eq_some_iff.1 (Option.mem_toList.1 hid)).1
    exact h id (Option.mem_toList.2 hid)
  unfold inner
  dsimp only
  split
  · exact Secures.bind (reference_secures hinv hstep hs _) hfilter
  · next href =>
    refine Secures.bind ((hstep s l hs (hl href)).map (fun id st hid id' hid' => ?_)) hfilter
    exact List.mem_singleton.1 hid' ▸ hid

theorem inside_secures (hinv : Inventoried inventory catalog root)
    (hstep : StepSecures inventory underWay room step) (hs : s.Within inventory)
    {rules : List Located} (hrules : ∀ l ∈ rules, l.rule.reference = none → l ∈ inventory) :
    Secures inventory underWay room (fun _ => True) (inside catalog root step s rules)
      (fun i => AllTaken i.rules) := by
  unfold inside
  refine Secures.bind (.mapM (fun l hl => inner_secures hinv hstep hs (hrules l hl))
    (fun id? => lasts_allTaken _)) (fun ids => .pure (fun st h id hid => ?_))
  obtain ⟨id?, hmem, hsome⟩ := List.mem_filterMap.1 hid
  exact h id? hmem id (Option.mem_toList.2 hsome)

/-- What is compiled refers to numbers that are taken. -/
theorem body_secures (hinv : Inventoried inventory catalog root)
    (hstep : StepSecures inventory underWay room step) (hs : s.Within inventory)
    (hl : l ∈ inventory) (id : RuleId) :
    Secures inventory underWay room (fun _ => True) (body catalog root step s l id)
      (fun b st => b.RefersTo st.table.Taken st.table.HasCapture ∧ b.isCapture = false) := by
  have hpatterns : ∀ {s : Sight} {P : Compilation → Prop}, s.Within inventory →
      Secures inventory underWay room P
        (inside catalog root step s (locatePatterns l.site (l.rule.patterns.getD [])))
        (fun i => AllTaken i.rules) := by
    intro s P hs
    refine (inside_secures hinv hstep hs (fun l' hl' _ => ?_)).mono (fun _ _ => trivial)
      (fun _ _ h => h)
    exact hinv.closed l hl _ (List.mem_append_left _ (List.mem_append_right _ hl'))
  have hcaptures : ∀ {list : CaptureList} {own : Option (List (Nat × RuleDefinition))}
      {P : Compilation → Prop}, (∀ rules ∈ own, l.rule.capturesFor list = some rules) →
      Secures inventory underWay room P (capturesOr step s l list own) AllCaptures :=
    fun hown => (capturesOr_secures hstep hinv.closed hs hl hown).mono (fun _ _ => trivial)
      (fun _ _ h => h)
  unfold body
  dsimp only
  split
  · refine Secures.bind (hcaptures (fun rules h => absurd h (Option.not_mem_none rules)))
      (fun captures => .pure (fun st h => ⟨h, rfl⟩))
  · refine Secures.bind (hcaptures (fun _ h => h)) (fun opening => ?_)
    split
    · refine Secures.bind ((hcaptures (fun _ h => h)).frame (lasts_allCaptures _))
        (fun continuing => ?_)
      refine Secures.bind ((hpatterns hs).frame
        ((lasts_allCaptures _).and (lasts_allCaptures _))) (fun inside => .pure (fun st h => ?_))
      exact ⟨⟨h.1.1, h.1.2, h.2⟩, rfl⟩
    · refine Secures.bind ((hcaptures (fun _ h => h)).frame (lasts_allCaptures _))
        (fun closing => ?_)
      refine Secures.bind ((hpatterns hs).frame
        ((lasts_allCaptures _).and (lasts_allCaptures _))) (fun inside => .pure (fun st h => ?_))
      exact ⟨⟨h.1.1, h.1.2, h.2⟩, rfl⟩
  · have hsight := hs.inside hinv.closed hl
    split
    · refine Secures.bind (inside_secures hinv hstep hsight (fun l' hl' href => ?_))
        (fun inside => .pure (fun st h => ⟨h, rfl⟩))
      rw [List.mem_singleton.1 hl'] at href
      cases href
    · exact Secures.bind (hpatterns hsight) (fun inside => .pure (fun st h => ⟨h, rfl⟩))

end Parts

/-! ## Compiling a rule -/

/-- **A rule that has no number** takes the next one and, when what it does is compiled, is put in
its place. What is to be secured has to follow from what is secured of the body, once the rule is
there. -/
theorem rule_takes {inventory : List Located} {catalog : Catalog} {root : Definition}
    {underWay : RuleId → Prop} {depth : Nat} {s : Sight} {l : Located} {P : Compilation → Prop}
    {B : RuleBody → Compilation → Prop} {Q : RuleId → Compilation → Prop} {st : Compilation}
    (hl : l ∈ inventory) (hnumber : Keyed.get? l.site st.numbers = none)
    (hbody : Secures inventory (fun id => underWay id ∨ id = st.table.next) depth P
      (body catalog root (rule catalog root depth) s l st.table.next)
      (fun b st' => B b st' ∧ b.RefersTo st'.table.Taken st'.table.HasCapture ∧
        b.isCapture = false))
    (htaken : st.Extends (st.taking l.site) → P (st.taking l.site))
    (hcomplete : ∀ (st' : Compilation) (r : Rule), B r.body st' →
      st'.InOrder inventory (fun id => underWay id ∨ id = st.table.next) →
      (l.site, st.table.next) ∈ st'.numbers → st'.Extends (st'.completing st.table.next r) →
        Q st.table.next (st'.completing st.table.next r)) :
    Secures inventory underWay (depth + 1) (· = st) (rule catalog root (depth + 1) s l) Q := by
  rintro st hst rfl
  have hsite := Keyed.not_mem_keys_of_get?_eq_none hnumber
  obtain ⟨htake, horder⟩ := hst.inOrder.take hsite
  have hlt := unvisited_cons_lt (List.mem_map_of_mem (f := (·.site)) hl) hsite
  have hfit : Fit inventory (fun id => underWay id ∨ id = st.table.next) depth
      (st.taking l.site) := ⟨horder, Nat.lt_of_lt_of_le hlt (Nat.le_of_lt_succ hst.room)⟩
  have hbody := hbody _ hfit (htaken htake)
  have hrun : EStateM.run (take l.site) st = .ok st.table.next (st.taking l.site) := rfl
  rw [rule, EStateM.run_bind, EStateM.run_get]
  dsimp only
  rw [hnumber]
  dsimp only
  rw [EStateM.run_bind, hrun]
  dsimp only
  rw [EStateM.run_bind]
  cases hrun' : EStateM.run (body catalog root (rule catalog root depth) s l st.table.next)
      (st.taking l.site) with
  | error e st' => simpa only [hrun'] using hbody
  | ok b st' =>
    simp only [hrun'] at hbody
    obtain ⟨hextends, horder', hsecured, hrefers, hcapture⟩ := hbody
    have hmem : (l.site, st.table.next) ∈ st'.numbers := hextends.numbers List.mem_cons_self
    have hnext : ¬ underWay st.table.next :=
      fun h => st.table.next_not_taken (hst.inOrder.taken _ h)
    obtain ⟨hdone, hinOrder⟩ := horder'.complete hnext
      (r := ⟨l.rule.name.map .ofText, _, b⟩) hrefers hcapture hl hmem rfl
    exact ⟨(htake.trans hextends).trans hdone, hinOrder,
      hcomplete st' ⟨_, _, b⟩ hsecured horder' hmem hdone⟩

/-- **Compiling a rule** ends by itself, and secures that the rule has a number. The induction is on
the depth, which is larger than the number of sites that are left; the rule takes its own, and what
is inside it is compiled with its number under way. -/
theorem rule_secures {inventory : List Located} {catalog : Catalog} {root : Definition}
    (hinv : Inventoried inventory catalog root) (depth : Nat) (underWay : RuleId → Prop) :
    StepSecures inventory underWay depth (rule catalog root depth) := by
  induction depth generalizing underWay with
  | zero => exact fun s l _ _ st hst _ => absurd hst.room (Nat.not_lt_zero _)
  | succ depth ih =>
    intro s l hs hl st hst _
    cases hnumber : Keyed.get? l.site st.numbers with
    | some id =>
      rw [rule, EStateM.run_bind, EStateM.run_get]
      dsimp only
      rw [hnumber]
      exact ⟨.refl st, hst.inOrder, hst.inOrder.numbers _ (Keyed.mem_of_get? hnumber)⟩
    | none =>
      have hstep := ih (fun id => underWay id ∨ id = st.table.next)
      have hbody := body_secures hinv hstep hs hl st.table.next
      refine rule_takes (B := fun _ _ => True) hl hnumber
        (hbody.mono (fun _ h => h) (fun _ _ h => ⟨trivial, h⟩)) (fun _ => trivial)
        (fun st' r _ horder _ hdone => ?_) st hst rfl
      exact hdone.taken (horder.taken _ (.inr rfl))

/-! ## Compiling a grammar -/

section Injections

variable {inventory : List Located} {underWay : RuleId → Prop} {room : Nat} {catalog : Catalog}
  {root : Definition} {step : Step}

/-- All injections have numbers that are taken. -/
def AllInjections (injections : List Injection) (st : Compilation) : Prop :=
  ∀ i ∈ injections, st.table.Taken i.rule

theorem lasts_allInjections (injections : List Injection) : Lasts (AllInjections injections) :=
  fun _ _ hextends h i hi => hextends.taken (h i hi)

theorem allInjections_ofSelector {id : RuleId} {st : Compilation} (h : st.table.Taken id)
    (selector grammar : String) : AllInjections (Injection.ofSelector selector id grammar) st := by
  intro i hi
  obtain ⟨part, -, rfl⟩ := List.mem_map.1 hi
  exact h

theorem ownInjections_secures (hinv : Inventoried inventory catalog root)
    (hstep : StepSecures inventory underWay room step) :
    Secures inventory underWay room (fun _ => True) (ownInjections step root) AllInjections := by
  have hroot : Opened.Within inventory ⟨root, root⟩ := ⟨hinv.root, hinv.root⟩
  unfold ownInjections
  refine Secures.bind (.mapM (fun p hp => ?_) lasts_allInjections)
    (fun found => .pure (fun st h i hi => ?_))
  · have hmem : p.2 ∈ inventory := hinv.root.injection ((Order.perm_sort _ _).mem_iff.1 hp)
    exact Secures.bind (hstep _ _ hroot.sight hmem)
      (fun id => .pure (fun st h => allInjections_ofSelector h _ _))
  · obtain ⟨is, his, hi⟩ := List.mem_flatten.1 hi
    exact h is his i hi

theorem injectedGrammar_secures (hinv : Inventoried inventory catalog root)
    (hstep : StepSecures inventory underWay room step) (scope : String) :
    Secures inventory underWay room (fun _ => True) (injectedGrammar catalog root step scope)
      AllInjections := by
  have hnil : ∀ st, AllInjections [] st := fun st i hi => absurd hi List.not_mem_nil
  unfold injectedGrammar
  refine (openGrammar_secures hinv scope (fun b hb => absurd hb (Option.not_mem_none b))).bind
    (fun o st hst ho => ?_)
  cases o with
  | none => exact ⟨.refl st, hst.inOrder, hnil st⟩
  | some o =>
    have ho := ho o rfl
    dsimp only
    cases o.self.injectionSelector with
    | none => exact ⟨.refl st, hst.inOrder, hnil st⟩
    | some selector =>
      exact Secures.bind (hstep _ _ ho.sight ho.self.whole)
        (fun id => .pure (fun st h => allInjections_ofSelector h _ _)) st hst trivial

theorem injections_secures (hinv : Inventoried inventory catalog root)
    (hstep : StepSecures inventory underWay room step) {P : Compilation → Prop} :
    Secures inventory underWay room P (injections catalog root step) AllInjections := by
  unfold injections
  refine Secures.mono (P := fun _ => True) ?_ (fun _ _ => trivial) (fun _ _ h => h)
  refine Secures.bind (ownInjections_secures hinv hstep) (fun own => ?_)
  refine Secures.bind (((Secures.mapM (fun scope _ => injectedGrammar_secures hinv hstep scope)
    lasts_allInjections).mono (fun _ _ => trivial) (fun _ _ h => h)).frame
      (lasts_allInjections own)) (fun others => .pure (fun st h i hi => ?_))
  obtain hi | hi := List.mem_append.1 ((Order.perm_sort _ _).mem_iff.1 hi)
  · exact h.1 i hi
  · obtain ⟨is, his, hi⟩ := List.mem_flatten.1 hi
    exact h.2 is his i hi

end Injections

/-- **Compiling all of a grammar**: the grammar as a whole, and then the injections. -/
def everything (catalog : Catalog) (root : Definition) : Compile (RuleId × List Injection) := do
  let step := rule catalog root (catalog.size + root.size + 1)
  let id ← step (Opened.sight ⟨root, root⟩) root.whole
  let injections ← injections catalog root step
  return (id, injections)

end Compile

namespace Ruleset

variable {catalog : Catalog} {root : Definition}

theorem ofDefinition_eq (catalog : Catalog) (root : Definition) :
    ofDefinition catalog root = match (Compile.everything catalog root).run {} with
      | .ok (id, injections) st => .ok ⟨root.scopeName, id, st.table, injections⟩
      | .error e _ => .error e := rfl

/-- **A grammar is compiled without a hole**: all numbers have rules, that suit them, and all
numbers that are referred to are among them. No rule that is written takes more than one number, and
the rules that no written rule has taken a number for are those for groups. -/
structure Complete (catalog : Catalog) (root : Definition) (rules : Ruleset)
    (numbers : List (Site × RuleId)) : Prop where
  /-- The rules are what compiling ends with, and these are the numbers taken. -/
  run : ∃ opened, (Compile.everything catalog root).run {} =
    .ok (rules.root, rules.injections) ⟨rules.table, numbers, opened⟩
  /-- All numbers have rules. Their lists have numbers that have rules, and their lists for groups
  have numbers of rules for groups. -/
  filled : ∀ n < rules.table.size, ∃ rule, rules.table.get? ⟨n + 1⟩ = some rule ∧
    rule.body.Suits ⟨n + 1⟩ ∧
    rule.body.RefersTo (fun id => (rules.table.get? id).isSome) rules.table.HasCapture ∧
    Compilation.Accounted (root.all ++ catalog.all) numbers ⟨n + 1⟩ rule
  /-- The rule that every text begins in. -/
  begins : (rules.table.get? rules.root).isSome
  /-- The injections. -/
  injections : ∀ i ∈ rules.injections, (rules.table.get? i.rule).isSome
  /-- No rule that is written has two numbers. -/
  sites : (numbers.map (·.1)).Nodup
  /-- No number is that of two rules that are written. -/
  ids : (numbers.map (·.2)).Nodup

theorem inventoried (catalog : Catalog) (root : Definition) :
    Compile.Inventoried (root.all ++ catalog.all) catalog root where
  closed := fun l hl p hp => by
    obtain hl | hl := List.mem_append.1 hl
    · exact List.mem_append_left _ (root.closed_all l hl p hp)
    · exact List.mem_append_right _ (catalog.closed_all l hl p hp)
  root := Definition.within_all (List.subset_append_left _ _)
  grammars := fun scope d hd => Definition.within_all (fun l hl =>
    List.mem_append_right _ (Catalog.mem_all_of_grammar? hd hl))

/-- There are fewer rules than the depth that compilation begins with. -/
theorem fit_empty (catalog : Catalog) (root : Definition) :
    Compile.Fit (root.all ++ catalog.all) (fun _ => False) (catalog.size + root.size + 1) {} := by
  refine ⟨Compilation.inOrder_empty _, ?_⟩
  change unvisited ((root.all ++ catalog.all).map (·.site)) [] < catalog.size + root.size + 1
  have := unvisited_le_length ((root.all ++ catalog.all).map (·.site)) []
  rw [List.length_map, List.length_append, root.length_all, catalog.length_all] at this
  omega

/-- What compiling all of a grammar secures. -/
theorem everything_secures (catalog : Catalog) (root : Definition) :
    match (Compile.everything catalog root).run {} with
    | .ok (id, injections) st => st.InOrder (root.all ++ catalog.all) (fun _ => False) ∧
        st.table.Taken id ∧ ∀ i ∈ injections, st.table.Taken i.rule
    | .error e _ => Compile.Refused (root.all ++ catalog.all) e := by
  have hinv := inventoried catalog root
  have hroot : Opened.Within (root.all ++ catalog.all) ⟨root, root⟩ := ⟨hinv.root, hinv.root⟩
  have hstep := Compile.rule_secures hinv (catalog.size + root.size + 1) (fun _ => False)
  have hsecures : Compile.Secures (root.all ++ catalog.all) (fun _ => False)
      (catalog.size + root.size + 1) (fun _ => True) (Compile.everything catalog root)
      (fun p st => st.table.Taken p.1 ∧ Compile.AllInjections p.2 st) := by
    refine Compile.Secures.bind (hstep _ _ hroot.sight hinv.root.whole) (fun id => ?_)
    refine Compile.Secures.bind ((Compile.injections_secures hinv hstep).frame
      (fun st st' hextends h => hextends.taken h)) (fun injections => .pure (fun st h => h))
  have hrun := hsecures {} (fit_empty catalog root) trivial
  cases hx : (Compile.everything catalog root).run {} with
  | error e st => simpa only [hx] using hrun
  | ok p st =>
    simp only [hx] at hrun
    exact ⟨hrun.2.1, hrun.2.2⟩

/-- **Compiling a grammar fails only for a group number that is too great.** -/
theorem refused_of_ofDefinition_error {e : CompileError}
    (h : ofDefinition catalog root = .error e) :
    Compile.Refused (root.all ++ catalog.all) e := by
  have hsecures := everything_secures catalog root
  rw [ofDefinition_eq] at h
  cases hx : (Compile.everything catalog root).run {} with
  | error e' st =>
    rw [hx] at h
    obtain rfl := Except.error.inj h
    simpa only [hx] using hsecures
  | ok p st =>
    rw [hx] at h
    cases h

/-- **Compiling leaves no hole**, whatever the grammars refer to, if no group number is too great.
No number is under way when it is over, so all that were taken have their rules. -/
theorem exists_complete (catalog : Catalog) (root : Definition)
    (hgroups : ∀ l ∈ root.all ++ catalog.all, ∀ rules ∈ l.rule.captureLists, ∀ p ∈ rules,
      p.1 ≤ Compile.groupLimit) :
    ∃ rules numbers, ofDefinition catalog root = .ok rules ∧
      rules.Complete catalog root numbers := by
  cases h : ofDefinition catalog root with
  | error e =>
    obtain ⟨l, hl, rules, hrules, p, hp, hlimit, -⟩ := refused_of_ofDefinition_error h
    exact absurd hlimit (Nat.not_lt.2 (hgroups l hl rules hrules p hp))
  | ok rules =>
  have hsound := (sound_of_ofDefinition h).table
  have hsecures := everything_secures catalog root
  rw [ofDefinition_eq] at h
  cases hx : (Compile.everything catalog root).run {} with
  | error e st =>
    rw [hx] at h
    cases h
  | ok p st =>
  rw [hx] at h
  obtain rfl := Except.ok.inj h
  simp only [hx] at hsecures
  obtain ⟨horder, hroot, hinjections⟩ := hsecures
  have hresolves : ∀ id, st.table.Taken id → (st.table.get? id).isSome := fun id hid =>
    Option.isSome_iff_ne_none.2 (fun hnone => (horder.holes id hid).1 hnone)
  refine ⟨_, st.numbers, rfl, ⟨st.opened, hx⟩, fun n hn => ?_, hresolves _ hroot,
    fun i hi => hresolves _ (hinjections i hi), horder.sites, horder.ids⟩
  obtain ⟨rule, hrule⟩ := Option.isSome_iff_exists.1 (hresolves ⟨n + 1⟩ ⟨Nat.succ_pos n, hn⟩)
  exact ⟨rule, hrule, hsound _ rule hrule,
    (horder.refers _ rule hrule).mono hresolves (fun _ h => h), horder.accounted _ rule hrule⟩

/-- A grammar that refers to itself, to a rule of its own that leads back to all of it, and also
reads one of its groups on, and to another grammar. -/
def circleRoot : Definition where
  scopeName := "source.a"
  patterns := [
    { reference := some "$self" },
    { reference := some "#pair" },
    { reference := some "source.b" },
    { reference := some "source.b#word" }]
  repository := [("pair", {
    opening := some "(a)"
    closing := some "(b)"
    captures := some [(1, { name := some "end", patterns := some [{ reference := some "#pair" }] })]
    patterns := some [{ reference := some "$base" }] })]

/-- That grammar, and one that refers back to it, and to itself by a named rule. It is injected. -/
def circle : Catalog where
  grammars := [
    ("source.a", circleRoot),
    ("source.b", {
      scopeName := "source.b"
      patterns := [{ reference := some "$base" }, { reference := some "source.a#pair" }]
      repository := [("word", {
        patterns := some [{ reference := some "#word" }, { pattern := some "w" }] })]
      injectionSelector := some "end" })]
  injections := [("source.a", ["source.b"])]

/-- Compiling the first grammar leaves no hole. It yields eight rules: the two grammars, the three
other rules that are written and that for the group, and two rules for groups, since the list is
used for both patterns. -/
theorem exists_complete_circle :
    ∃ rules numbers, ofDefinition circle circleRoot = .ok rules ∧ rules.table.size = 8 ∧
      numbers.length = 6 ∧ rules.injections.length = 1 ∧
      rules.Complete circle circleRoot numbers := by
  have hgroups : ∀ l ∈ circleRoot.all ++ circle.all, ∀ rules ∈ l.rule.captureLists, ∀ p ∈ rules,
      p.1 ≤ Compile.groupLimit := by
    decide +kernel
  obtain ⟨rules, numbers, hrules, hcomplete⟩ := exists_complete circle circleRoot hgroups
  have hsizes : (match (Compile.everything circle circleRoot).run {} with
      | .ok (_, injections) st => (st.table.size, st.numbers.length, injections.length)
      | .error _ _ => (0, 0, 0)) = (8, 6, 1) := by
    decide +kernel
  obtain ⟨opened, hrun⟩ := hcomplete.run
  rw [hrun] at hsizes
  simp only [Prod.mk.injEq] at hsizes
  exact ⟨rules, numbers, hrules, hsizes.1, hsizes.2.1, hsizes.2.2, hcomplete⟩

/-- A grammar with a rule for a group that no pattern can have. -/
def greatGroup : Definition where
  scopeName := "text"
  patterns := [{
    pattern := some "a"
    captures := some [(18446744073709551615, { name := some "x" })] }]

/-- **A group number that is too great cannot be compiled**: the list of all groups up to it has no
length. -/
theorem not_exists_complete_greatGroup :
    ofDefinition {} greatGroup = .error (.groupNumber 18446744073709551615) ∧
      ¬ ∃ rules numbers, ofDefinition {} greatGroup = .ok rules ∧
        rules.Complete {} greatGroup numbers := by
  have herror : ofDefinition {} greatGroup = .error (.groupNumber 18446744073709551615) := rfl
  refine ⟨herror, ?_⟩
  rintro ⟨rules, numbers, hok, -⟩
  rw [herror] at hok
  cases hok

end Ruleset

end Highlight.Grammar
