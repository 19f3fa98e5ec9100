import Highlight.Proofs.Resolving
import Highlight.Proofs.Spending
import Mathlib.Logic.Relation

/-!
# Rules that lead nowhere

A rule of which all that it should hold is missing leads nowhere: it is **void**. It is to be left
out of the rules that would list it. Whether a rule is void is known only once it is complete, and a
rule may be listed before. Then it is kept.

Through lists alone nothing goes wrong. Who lists a rule that is under way is compiled inside it, by
way of what it lists itself; if it is void in the end, none of that was kept, as only void rules are
left out, and a rule with a list is not void. But a void rule may have groups, and what they are
read on by is compiled inside it too, and is kept. So a void rule is listed by what stands
**behind** the groups of a void rule, and nowhere else.

Which rules stand there is seen from the table alone. To find them, each step of compilation is told
which rules it has completed since it began: those that it has reached from the numbers that it
yields, and those behind void rules that it has completed.
-/

namespace Highlight.Grammar

/-- A number in the list of a rule is one that the rule refers to. -/
theorem RuleBody.RefersTo.of_mem_listed {listed grouped : RuleId → Prop}
    {b : RuleBody} (h : b.RefersTo listed grouped) {id : RuleId} (hid : id ∈ b.listed) :
    listed id := by
  cases b with
  | single matched => exact absurd hid List.not_mem_nil
  | choice inside => exact h id hid
  | region opening closing closeLast inside => exact h.2.2 id hid
  | block opening continuing inside => exact h.2.2 id hid
  | capture within => exact absurd hid List.not_mem_nil

namespace RuleTable

/-! ## What rules lead on to -/

/-- A rule lists another one. -/
def Lists (t : RuleTable) (outer inner : RuleId) : Prop :=
  ∃ rule, t.get? outer = some rule ∧ inner ∈ rule.body.listed

/-- **A rule is void**: all rules inside it were left out. -/
def Void (t : RuleTable) (id : RuleId) : Prop := ∃ rule, t.get? id = some rule ∧ rule.isVoid = true

/-- One of the rules for groups has the text of its group read on by a rule. -/
def ReadBy (t : RuleTable) (c : CaptureRules) (within : RuleId) : Prop :=
  ∃ p ∈ c.rules, ∃ rule, t.get? p.2 = some rule ∧ rule.body = .capture (some within)

/-- A rule has the text of a group of one of its patterns read on by another one. -/
def ReadsOn (t : RuleTable) (id within : RuleId) : Prop :=
  ∃ rule, t.get? id = some rule ∧ ∃ c ∈ rule.body.groupRules, t.ReadBy c within

/-- **A rule leads on** to another one, by its list or by a group. -/
def LeadsOn (t : RuleTable) (id next : RuleId) : Prop := t.Lists id next ∨ t.ReadsOn id next

/-- **A rule stands behind the groups of another one**: it is among those that read on a group, or
is led on to from there. -/
def Behind (t : RuleTable) (void id : RuleId) : Prop :=
  ∃ within, t.ReadsOn void within ∧ Relation.ReflTransGen t.LeadsOn within id

/-- **No void rule is listed.** -/
def DropsVoid (t : RuleTable) : Prop := ∀ outer inner, t.Lists outer inner → ¬ t.Void inner

/-- A void rule lists nothing. -/
theorem Void.not_lists {t : RuleTable} {id inner : RuleId} (h : t.Void id) :
    ¬ t.Lists id inner := by
  obtain ⟨rule, hrule, hvoid⟩ := h
  rintro ⟨rule', hrule', hinner⟩
  obtain rfl := Option.some.inj (hrule.symm.trans hrule')
  obtain ⟨name, contentName, body⟩ := rule
  cases body <;> simp_all [Rule.isVoid, Rule.inside?, RuleBody.listed]

/-- What a void rule leads on to stands behind its groups. -/
theorem Void.behind {t : RuleTable} {id outer inner : RuleId} (h : t.Void id)
    (hleads : Relation.ReflTransGen t.LeadsOn id outer) (hlists : t.Lists outer inner) :
    t.Behind id outer := by
  obtain rfl | ⟨next, hlists' | hreads, hrest⟩ := hleads.cases_head
  · exact absurd hlists h.not_lists
  · exact absurd hlists' h.not_lists
  · exact ⟨next, hreads, hrest⟩

section Mono

variable {t t' : RuleTable} {id next : RuleId}
  (h : ∀ id rule, t.get? id = some rule → t'.get? id = some rule)
include h

theorem Lists.mono (hlists : t.Lists id next) : t'.Lists id next := by
  obtain ⟨rule, hrule, hnext⟩ := hlists
  exact ⟨rule, h id rule hrule, hnext⟩

theorem Void.mono (hvoid : t.Void id) : t'.Void id := by
  obtain ⟨rule, hrule, hvoid⟩ := hvoid
  exact ⟨rule, h id rule hrule, hvoid⟩

theorem ReadBy.mono {c : CaptureRules} (hread : t.ReadBy c next) : t'.ReadBy c next := by
  obtain ⟨p, hp, rule, hrule, hbody⟩ := hread
  exact ⟨p, hp, rule, h p.2 rule hrule, hbody⟩

theorem ReadsOn.mono (hreads : t.ReadsOn id next) : t'.ReadsOn id next := by
  obtain ⟨rule, hrule, c, hc, hread⟩ := hreads
  exact ⟨rule, h id rule hrule, c, hc, hread.mono h⟩

theorem leadsOn_mono (hleads : Relation.ReflTransGen t.LeadsOn id next) :
    Relation.ReflTransGen t'.LeadsOn id next :=
  Relation.ReflTransGen.mono (fun _ _ hon => hon.imp (.mono h) (.mono h)) _ _ hleads

theorem Behind.mono (hbehind : t.Behind id next) : t'.Behind id next := by
  obtain ⟨within, hreads, hleads⟩ := hbehind
  exact ⟨within, hreads.mono h, leadsOn_mono h hleads⟩

end Mono

end RuleTable

namespace Compilation

/-! ## Which rules have been completed since -/

/-- **Void rules are listed behind groups only**: who lists a void rule stands behind the groups of
a void rule that took its number no earlier. -/
def Judged (st : Compilation) : Prop :=
  ∀ outer inner, st.table.Lists outer inner → st.table.Void inner →
    ∃ void, st.table.Void void ∧ inner.number ≤ void.number ∧ st.table.Behind void outer

/-- **What has been completed since** an earlier state: each rule that has a list is led on to from
one of some new numbers, or stands behind the groups of a new rule that is void. -/
structure Since (st : Compilation) (starts : RuleId → Prop) (st' : Compilation) : Prop where
  /-- Compilation has gone on. -/
  goesOn : st.Extends st'
  /-- Void rules are listed behind groups only. -/
  judged : st'.Judged
  /-- Where the new rules are. -/
  reached : ∀ outer inner, st.table.get? outer = none → st'.table.Lists outer inner →
    (∃ id, starts id ∧ st.table.size < id.number ∧
      Relation.ReflTransGen st'.table.LeadsOn id outer) ∨
    ∃ void, st'.table.Void void ∧ st.table.size < void.number ∧ st'.table.Behind void outer

namespace Since

variable {st st' st'' : Compilation} {starts starts' : RuleId → Prop}

/-- Nothing that has a list has been completed, nor what is void. -/
theorem of_extends (h : st.Judged) (hextends : st.Extends st')
    (hnew : ∀ id rule, st'.table.get? id = some rule →
      st.table.get? id = some rule ∨ rule.body.listed = [] ∧ rule.isVoid = false) :
    st.Since starts st' := by
  refine ⟨hextends, fun outer inner hlists hvoid => ?_, fun outer inner hnone hlists => ?_⟩
  · obtain ⟨rule, hrule, hinner⟩ := hlists
    obtain ⟨rule', hrule', hvoid⟩ := hvoid
    obtain hold | ⟨hnil, -⟩ := hnew outer rule hrule
    · obtain hold' | ⟨-, hfalse⟩ := hnew inner rule' hrule'
      · obtain ⟨void, hvoid, hle, hbehind⟩ :=
          h outer inner ⟨rule, hold, hinner⟩ ⟨rule', hold', hvoid⟩
        exact ⟨void, hvoid.mono hextends.rules, hle, hbehind.mono hextends.rules⟩
      · exact absurd hvoid (by simp [hfalse])
    · simp [hnil] at hinner
  · obtain ⟨rule, hrule, hinner⟩ := hlists
    obtain hold | ⟨hnil, -⟩ := hnew outer rule hrule
    · rw [hnone] at hold
      cases hold
    · simp [hnil] at hinner

/-- Nothing has been completed where the table is as it was. -/
theorem of_table_eq (h : st.Judged) (hextends : st.Extends st') (htable : st'.table = st.table) :
    st.Since starts st' :=
  of_extends h hextends fun _ _ hrule => .inl (htable ▸ hrule)

theorem mono (h : st.Since starts st') (hstarts : ∀ id, starts id → starts' id) :
    st.Since starts' st' := by
  refine ⟨h.goesOn, h.judged, fun outer inner hnone hlists => ?_⟩
  obtain ⟨id, hid, hreached⟩ | hbehind := h.reached outer inner hnone hlists
  · exact .inl ⟨id, hstarts id hid, hreached⟩
  · exact .inr hbehind

/-- What has been completed in two runs of steps. -/
theorem trans (h : st.Since starts st') (h' : st'.Since starts' st'') :
    st.Since (fun id => starts id ∨ starts' id) st'' := by
  have hrules := h'.goesOn.rules
  refine ⟨h.goesOn.trans h'.goesOn, h'.judged, fun outer inner hnone hlists => ?_⟩
  cases hrule : st'.table.get? outer with
  | none =>
    have hsize := h.goesOn.size
    obtain ⟨id, hid, hnew, hleads⟩ | ⟨void, hvoid, hnew, hbehind⟩ :=
      h'.reached outer inner hrule hlists
    · exact .inl ⟨id, .inr hid, by omega, hleads⟩
    · exact .inr ⟨void, hvoid, by omega, hbehind⟩
  | some rule =>
    have hlists' : st'.table.Lists outer inner := by
      obtain ⟨rule', hrule', hinner⟩ := hlists
      rw [hrules outer rule hrule] at hrule'
      exact ⟨rule, hrule, Option.some.inj hrule' ▸ hinner⟩
    obtain ⟨id, hid, hnew, hleads⟩ | ⟨void, hvoid, hnew, hbehind⟩ :=
      h.reached outer inner hnone hlists'
    · exact .inl ⟨id, .inl hid, hnew, RuleTable.leadsOn_mono hrules hleads⟩
    · exact .inr ⟨void, hvoid.mono hrules, hnew, hbehind.mono hrules⟩

/-- From a number that belongs to a void rule, only what stands behind its groups is reached. -/
theorem of_void {id : RuleId} (h : st.Since (· = id) st') (hvoid : st'.table.Void id) :
    st.Since starts st' := by
  refine ⟨h.goesOn, h.judged, fun outer inner hnone hlists => .inr ?_⟩
  obtain ⟨_, rfl, hnew, hleads⟩ | hbehind := h.reached outer inner hnone hlists
  · exact ⟨_, hvoid, hnew, hvoid.behind hleads hlists⟩
  · exact hbehind

end Since

end Compilation

open Compilation

namespace Compile

/-- **A step traces** what it completes to the numbers that it yields, and secures something of
these. -/
def Traces {α : Type} (inventory : List Located) (underWay : RuleId → Prop) (room : Nat)
    (x : Compile α) (starts : α → Compilation → RuleId → Prop) (Q : α → Compilation → Prop) :
    Prop :=
  ∀ st, Secures inventory underWay room (fun st' => st' = st ∧ st.Judged) x
    (fun a st' => st.Since (starts a st') st' ∧ Q a st')

section Traces

variable {inventory : List Located} {underWay : RuleId → Prop} {room : Nat} {α β : Type}
  {x : Compile α} {starts : α → Compilation → RuleId → Prop} {Q : α → Compilation → Prop}

namespace Traces

theorem pure {a : α} (h : ∀ st, Q a st) : Traces inventory underWay room (Pure.pure a) starts Q :=
  fun _ => Secures.pure fun st' h' => by
    obtain ⟨rfl, hjudged⟩ := h'
    exact ⟨.of_table_eq hjudged (.refl _) rfl, h _⟩

theorem mono {starts' : α → Compilation → RuleId → Prop} {Q' : α → Compilation → Prop}
    (h : Traces inventory underWay room x starts Q)
    (hstarts : ∀ a st, Q a st → ∀ id, starts a st id → starts' a st id)
    (hQ : ∀ a st, Q a st → Q' a st) : Traces inventory underWay room x starts' Q' :=
  fun st => (h st).mono (fun _ h => h)
    fun a st' h => ⟨h.1.mono (hstarts a st' h.2), hQ a st' h.2⟩

/-- What a step completes, in sequence with what was completed before it. -/
theorem after (h : Traces inventory underWay room x starts Q) {st₀ : Compilation}
    {B : Compilation → RuleId → Prop} {P : Compilation → Prop}
    (hB : ∀ id, Lasts (B · id)) (hP : Lasts P) :
    Secures inventory underWay room (fun st => st₀.Since (B st) st ∧ P st) x
      (fun a st => st₀.Since (fun id => B st id ∨ starts a st id) st ∧ P st ∧ Q a st) := by
  rintro st hst ⟨hsince, hholds⟩
  have hrun := h st st hst ⟨rfl, hsince.judged⟩
  cases hx : x.run st with
  | error e st' => simpa only [hx] using hrun
  | ok a st' =>
    simp only [hx] at hrun
    obtain ⟨hextends, horder, hnew, hQ⟩ := hrun
    refine ⟨hextends, horder, (hsince.trans hnew).mono fun id hid => ?_, hP st st' hextends hholds,
      hQ⟩
    exact hid.imp_left (hB id st st' hextends)

/-- A step after one that completes nothing. -/
theorem bind {y : α → Compile β} {starts : β → Compilation → RuleId → Prop}
    {R : β → Compilation → Prop} {q : α → Prop}
    (h : Traces inventory underWay room x (fun _ _ _ => False) (fun a _ => q a))
    (hy : ∀ a, q a → Traces inventory underWay room (y a) starts R) :
    Traces inventory underWay room (x >>= y) starts R := by
  intro st
  refine Secures.bind (h st) fun a st' hst' hfirst => ?_
  have hsecond : Secures inventory underWay room
      (fun st' => st.Since (fun _ => False) st' ∧ True) (y a)
      (fun b st' => st.Since (starts b st') st' ∧ R b st') :=
    ((hy a hfirst.2).after (fun _ _ _ _ h => h) (fun _ _ _ h => h)).mono (fun _ h => h)
      fun b st' h => ⟨h.1.mono fun _ hid => hid.resolve_left not_false, h.2.2⟩
  exact hsecond st' hst' ⟨hfirst.1, trivial⟩

/-- A step whose result only is put into another form. -/
theorem map {f : α → β} {starts' : β → Compilation → RuleId → Prop}
    {Q' : β → Compilation → Prop} (h : Traces inventory underWay room x starts Q)
    (hstarts : ∀ a st id, starts a st id → starts' (f a) st id)
    (hQ : ∀ a st, Q a st → Q' (f a) st) : Traces inventory underWay room (f <$> x) starts' Q' :=
  fun st => Secures.map (h st) fun a st' h => ⟨h.1.mono (hstarts a st'), hQ a st' h.2⟩

/-- Steps for a list trace what they complete to all numbers that they yield. -/
theorem mapM {f : α → Compile β} {list : List α} {starts : β → Compilation → RuleId → Prop}
    {R : β → Compilation → Prop} (h : ∀ a ∈ list, Traces inventory underWay room (f a) starts R)
    (hstarts : ∀ b id, Lasts (starts b · id)) (hR : ∀ b, Lasts (R b)) :
    Traces inventory underWay room (list.mapM f) (fun bs st id => ∃ b ∈ bs, starts b st id)
      (fun bs st => ∀ b ∈ bs, R b st) := by
  induction list with
  | nil => exact .pure fun _ b hb => absurd hb List.not_mem_nil
  | cons a list ih =>
    obtain ⟨ha, hlist⟩ := List.forall_mem_cons.1 h
    intro st
    rw [List.mapM_cons]
    refine Secures.bind (ha st) fun b => ?_
    refine Secures.bind ((ih hlist).after (hstarts b) (hR b)) fun bs => .pure fun st' h => ?_
    refine ⟨h.1.mono fun id hid => ?_, List.forall_mem_cons.2 h.2⟩
    obtain hid | ⟨b', hb', hid⟩ := hid
    · exact ⟨b, List.mem_cons_self, hid⟩
    · exact ⟨b', List.mem_cons_of_mem _ hb', hid⟩

/-- A step for the value of an option. -/
theorem optionMapM {f : α → Compile β} {o : Option α}
    {starts : β → Compilation → RuleId → Prop} {R : β → Compilation → Prop}
    (h : ∀ a ∈ o, Traces inventory underWay room (f a) starts R) :
    Traces inventory underWay room (o.mapM f) (fun b? st id => ∃ b ∈ b?, starts b st id)
      (fun b? st => ∀ b ∈ b?, R b st) := by
  cases o with
  | none => exact .pure fun _ b hb => absurd hb (Option.not_mem_none b)
  | some a =>
    refine Traces.map (h a rfl) (fun b st id hid => ⟨b, rfl, hid⟩) (fun b st hb b' hb' => ?_)
    exact Option.some.inj hb' ▸ hb

end Traces

end Traces

/-- **A number is kept**: it is under way, or that of a rule that is not void. -/
def IsKept (underWay : RuleId → Prop) (id : RuleId) (st : Compilation) : Prop :=
  underWay id ∨ ∃ rule, st.table.get? id = some rule ∧ rule.isVoid = false

theorem lasts_isKept (underWay : RuleId → Prop) (id : RuleId) : Lasts (IsKept underWay id) :=
  fun _ _ hextends h => h.imp_right fun ⟨rule, hrule, hvoid⟩ =>
    ⟨rule, hextends.rules id rule hrule, hvoid⟩

/-- **How rules are compiled traces** what it completes to the number that it yields. -/
def StepTraces (inventory : List Located) (underWay : RuleId → Prop) (room : Nat)
    (step : Step) : Prop :=
  ∀ s l, s.Within inventory → l ∈ inventory →
    Traces inventory underWay room (step s l) (fun id _ id' => id' = id) (fun _ _ => True)

section Parts

variable {inventory : List Located} {underWay : RuleId → Prop} {room : Nat} {catalog : Catalog}
  {root : Definition} {step : Step} {s : Sight} {l : Located}

/-- A rule that is compiled where there need not be any is traced to its number. -/
theorem StepTraces.some (hstep : StepTraces inventory underWay room step)
    (hs : s.Within inventory) (hl : l ∈ inventory) :
    Traces inventory underWay room (some <$> step s l) (fun id? _ id => id ∈ id?)
      (fun _ _ => True) :=
  (hstep s l hs hl).map (fun _ _ _ h => h ▸ rfl) (fun _ _ h => h)

/-- A rule that is compiled where there need not be any has taken its number. -/
theorem StepSecures.some (hstep : StepSecures inventory underWay room step)
    (hs : s.Within inventory) (hl : l ∈ inventory) :
    Secures inventory underWay room (fun _ => True) (some <$> step s l)
      (fun id? => AllTaken id?.toList) :=
  (hstep s l hs hl).map fun _ _ hid _ hid' => List.mem_singleton.1 hid' ▸ hid

theorem openGrammar_traces (hinv : Inventoried inventory catalog root) (scope : String)
    {base : Option Definition} (hbase : ∀ b ∈ base, b.Within inventory) :
    Traces inventory underWay room (openGrammar catalog root scope base) (fun _ _ _ => False)
      (fun o _ => ∀ o' ∈ o, o'.Within inventory) := by
  rintro _ st hst ⟨rfl, hjudged⟩
  obtain ⟨o?, ho, hrun | ⟨o, hwithin, hrun⟩⟩ :=
    openGrammar_run hinv scope hbase hst.inOrder.opened
  · rw [hrun]
    exact ⟨.refl _, hst.inOrder, .of_table_eq hjudged (.refl _) rfl, ho⟩
  · rw [hrun]
    have hextends : st.Extends { st with opened := (scope, o) :: st.opened } :=
      ⟨fun _ _ h => h, Nat.le_refl _, List.Subset.refl _⟩
    exact ⟨hextends, hst.inOrder.opening hwithin, .of_table_eq hjudged hextends rfl, ho⟩

/-- **What a reference leads to** is traced to the number of the rule. -/
theorem reference_traces (hinv : Inventoried inventory catalog root)
    (hstep : StepTraces inventory underWay room step) (hs : s.Within inventory) (ref : Reference) :
    Traces inventory underWay room (reference catalog root step s ref)
      (fun id? _ id => id ∈ id?) (fun _ _ => True) := by
  have hnamed : ∀ {s : Sight} {entries : List (String × Located)} (name : String),
      s.Within inventory → (∀ p ∈ entries, p.2 ∈ inventory) →
      Traces inventory underWay room ((Keyed.get? name entries).mapM (step s))
        (fun id? _ id => id ∈ id?) (fun _ _ => True) := by
    intro s entries name hs hentries
    refine (Traces.optionMapM fun l hl => hstep s l hs (hentries _ (Keyed.mem_of_get? hl))).mono
      (fun id? st _ id => ?_) (fun _ _ _ => trivial)
    rintro ⟨_, hid, rfl⟩
    exact hid
  have hbase : ∀ b ∈ some s.base, b.Within inventory := fun b hb => Option.some.inj hb ▸ hs.base
  unfold reference
  split
  · exact hnamed _ hs hs.entries
  · exact hnamed _ hs hs.entries
  · exact hnamed _ hs hs.entries
  · refine (openGrammar_traces hinv _ hbase).bind fun o ho => ?_
    split
    · next o => exact hstep.some (ho o rfl).sight (ho o rfl).self.whole
    · exact .pure fun _ => trivial
  · refine (openGrammar_traces hinv _ hbase).bind fun o ho => ?_
    split
    · next o => exact hnamed _ (ho o rfl).sight fun p hp => (ho o rfl).self.entry hp
    · exact .pure fun _ => trivial

/-- What has been completed is led on to from the number that is yielded, which is taken. -/
theorem Traces.withTaken {x : Compile (Option RuleId)}
    (htraces : Traces inventory underWay room x (fun id? _ id => id ∈ id?) (fun _ _ => True))
    (htaken : Secures inventory underWay room (fun _ => True) x (fun id? => AllTaken id?.toList))
    (st : Compilation) :
    Secures inventory underWay room (fun st' => st' = st ∧ st.Judged) x
      (fun id? st' => st.Since (· ∈ id?) st' ∧ AllTaken id?.toList st') :=
  ((htraces st).and htaken).mono (fun _ h => ⟨h, trivial⟩) (fun _ _ h => ⟨h.1.1, h.2⟩)

/-- **A number that was yielded is dropped** if its rule is void. Then what was completed stands
behind the groups of that rule. -/
theorem filter_traces (st₀ : Compilation) (id? : Option RuleId) :
    Secures inventory underWay room
      (fun st => st₀.Since (· ∈ id?) st ∧ AllTaken id?.toList st)
      (do
        let table := (← MonadState.get).table
        return id?.filter (fun id => !(table.get? id).any (·.isVoid)) : Compile (Option RuleId))
      (fun id? st => st₀.Since (· ∈ id?) st ∧ ∀ id ∈ id?, IsKept underWay id st) := by
  rintro st hst ⟨hsince, htaken⟩
  refine ⟨.refl st, hst.inOrder, ?_⟩
  cases id? with
  | none => exact ⟨hsince, fun id hid => absurd hid (Option.not_mem_none id)⟩
  | some id =>
    rw [Option.filter_some]
    split
    · next hkeep =>
      refine ⟨hsince, fun id' hid' => ?_⟩
      obtain rfl := Option.some.inj hid'
      cases hrule : st.table.get? id with
      | none =>
        -- the number has no rule, so it is under way
        exact .inl ((hst.inOrder.holes id (htaken id (List.mem_singleton_self _))).1 hrule)
      | some rule => exact .inr ⟨rule, hrule, by simpa [hrule] using hkeep⟩
    · next hdrop =>
      have hvoid : (st.table.get? id).any (·.isVoid) = true := by simpa using hdrop
      obtain ⟨rule, hrule, hvoid⟩ := (Option.any_eq_true _ _).1 hvoid
      have honly : st₀.Since (· = id) st := hsince.mono fun _ hid => (Option.some.inj hid).symm
      exact ⟨honly.of_void ⟨rule, hrule, hvoid⟩, fun id hid => absurd hid (Option.not_mem_none id)⟩

/-- Numbers that are yielded and not dropped are kept. -/
theorem Traces.filtered {x : Compile (Option RuleId)}
    (htraces : Traces inventory underWay room x (fun id? _ id => id ∈ id?) (fun _ _ => True))
    (htaken : Secures inventory underWay room (fun _ => True) x (fun id? => AllTaken id?.toList)) :
    Traces inventory underWay room (x >>= fun id? => do
      let table := (← MonadState.get).table
      return id?.filter (fun id => !(table.get? id).any (·.isVoid)))
      (fun id? _ id => id ∈ id?) (fun id? st => ∀ id ∈ id?, IsKept underWay id st) :=
  fun st => Secures.bind (htraces.withTaken htaken st) (filter_traces st)

/-- **A rule inside a rule** is traced to its number if it is kept. If it is left out it is void,
and what it has completed stands behind its groups. -/
theorem inner_traces (hinv : Inventoried inventory catalog root)
    (hsecures : StepSecures inventory underWay room step)
    (hstep : StepTraces inventory underWay room step) (hs : s.Within inventory)
    (hl : l.rule.reference = none → l ∈ inventory) :
    Traces inventory underWay room (inner catalog root step s l) (fun id? _ id => id ∈ id?)
      (fun id? st => ∀ id ∈ id?, IsKept underWay id st) := by
  unfold inner
  dsimp only
  split
  · exact .filtered (reference_traces hinv hstep hs _) (reference_secures hinv hsecures hs _)
  · next href => exact .filtered (hstep.some hs (hl href)) (hsecures.some hs (hl href))

/-- **The rules inside a rule** are traced to their numbers, all of which are kept. -/
theorem inside_traces (hinv : Inventoried inventory catalog root)
    (hsecures : StepSecures inventory underWay room step)
    (hstep : StepTraces inventory underWay room step) (hs : s.Within inventory)
    {rules : List Located} (hrules : ∀ l ∈ rules, l.rule.reference = none → l ∈ inventory) :
    Traces inventory underWay room (inside catalog root step s rules)
      (fun i _ id => id ∈ i.rules) (fun i st => ∀ id ∈ i.rules, IsKept underWay id st) := by
  have hmapM := Traces.mapM
    (fun l hl => inner_traces hinv hsecures hstep hs (hrules l hl))
    (fun _ _ _ _ _ h => h) (fun id? st st' hextends h id hid =>
      lasts_isKept underWay id st st' hextends (h id hid))
  unfold inside
  refine fun st => Secures.bind (hmapM st) fun ids => .pure fun st' h => ⟨h.1.mono ?_, ?_⟩
  · rintro id ⟨id?, hmem, hid⟩
    exact List.mem_filterMap.2 ⟨id?, hmem, hid⟩
  · intro id hid
    obtain ⟨id?, hmem, hsome⟩ := List.mem_filterMap.1 hid
    exact h.2 id? hmem id hsome

/-- Adding a rule for a group completes no rule that has a list. -/
theorem add_traces (name contentName : Option ScopeTemplate) (within : Option RuleId)
    {st₀ : Compilation} {starts : RuleId → Prop} :
    Secures inventory underWay room
      (fun st => st₀.Since starts st ∧ AllTaken within.toList st)
      (add ⟨name, contentName, .capture within⟩)
      (fun id st => st₀.Since starts st ∧
        ∃ rule, st.table.get? id = some rule ∧ rule.body = .capture within) := by
  rintro st hst ⟨hsince, htaken⟩
  obtain ⟨hextends, horder, -⟩ := hst.inOrder.add (r := ⟨name, contentName, .capture within⟩) rfl
    (fun id hid => htaken id (Option.mem_toList.2 hid))
  have hget := st.table.get?_push (some ⟨name, contentName, .capture within⟩)
  have hadded : st.Since (fun _ => False) _ := .of_extends hsince.judged hextends
    fun id rule hrule => by
      change (⟨st.table.rules.push _⟩ : RuleTable).get? id = some rule at hrule
      rw [hget] at hrule
      split at hrule
      · exact .inr (Option.some.inj hrule ▸ ⟨rfl, rfl⟩)
      · exact .inl hrule
  refine ⟨hextends, horder, (hsince.trans hadded).mono fun _ h => h.resolve_right not_false,
    ⟨name, contentName, .capture within⟩, ?_, rfl⟩
  exact (hget st.table.next).trans (if_pos rfl)

/-- **The rule for a group** is traced to the rule that has the text of the group read on by. -/
theorem Traces.added {x : Compile (Option RuleId)} (group : Nat) (r : RuleDefinition)
    (htraces : Traces inventory underWay room x (fun within _ id => id ∈ within) (fun _ _ => True))
    (htaken : Secures inventory underWay room (fun _ => True) x
      (fun within => AllTaken within.toList)) :
    Traces inventory underWay room (do
      let within ← x
      let id ← add ⟨r.name.map .ofText, r.contentName.map .ofText, .capture within⟩
      return (group, id) : Compile (Nat × RuleId))
      (fun p st id => st.table.ReadBy ⟨[p]⟩ id) (fun _ _ => True) := by
  intro st
  refine Secures.bind (htraces.withTaken htaken st) fun within => ?_
  refine Secures.bind (add_traces _ _ within) fun id => .pure fun st' h => ⟨?_, trivial⟩
  obtain ⟨hsince, rule, hrule, hbody⟩ := h
  refine hsince.mono fun id' hid' => ⟨_, List.mem_singleton_self _, rule, hrule, ?_⟩
  rw [hbody, Option.mem_def.1 hid']

/-- **The rules for the groups of a pattern** are traced to the rules that they have the texts of
their groups read on by. -/
theorem captures_traces (hsecures : StepSecures inventory underWay room step)
    (hstep : StepTraces inventory underWay room step) (hs : s.Within inventory) {site : Site}
    {list : CaptureList} {rules : List (Nat × RuleDefinition)}
    (hrules : ∀ l ∈ locateCaptures site list rules, l ∈ inventory)
    (hrefused : ∀ p ∈ rules, groupLimit < p.1 → Refused inventory (.groupNumber p.1)) :
    Traces inventory underWay room (captures step s site list rules)
      (fun c st id => st.table.ReadBy c id) (fun _ _ => True) := by
  unfold captures
  dsimp only
  split
  · next group r hfind =>
    have hlimit := List.find?_some hfind
    exact fun st => .throw (hrefused (group, r) (List.mem_of_find?_eq_some hfind)
      (of_decide_eq_true hlimit))
  · have hlasts : ∀ (p : Nat × RuleId) id, Lasts (fun st => st.table.ReadBy ⟨[p]⟩ id) :=
      fun p id st st' hextends h => h.mono hextends.rules
    intro st
    refine Secures.bind (Traces.mapM (R := fun _ _ => True) (fun p hp => ?_) hlasts
      (fun _ _ _ _ h => h) st) fun ids => .pure fun st' h => ⟨h.1.mono ?_, trivial⟩
    · obtain ⟨group, r⟩ := p
      have hl := hrules _ (List.mem_map_of_mem hp)
      dsimp only
      split
      · exact .added group r (hstep.some hs hl) (hsecures.some hs hl)
      · exact .added group r (.pure fun _ => trivial)
          (.pure fun _ _ id hid => absurd hid List.not_mem_nil)
    · rintro id ⟨p, hp, q, hq, hread⟩
      exact ⟨q, List.mem_singleton.1 hq ▸ hp, hread⟩

theorem capturesOr_traces (hsecures : StepSecures inventory underWay room step)
    (hstep : StepTraces inventory underWay room step) (hclosed : Closed inventory)
    (hs : s.Within inventory) (hl : l ∈ inventory) {list : CaptureList}
    {own : Option (List (Nat × RuleDefinition))}
    (hown : ∀ rules ∈ own, l.rule.capturesFor list = some rules) :
    Traces inventory underWay room (capturesOr step s l list own)
      (fun c st id => st.table.ReadBy c id) (fun _ _ => True) := by
  have hlisted : ∀ {list : CaptureList} {rules : List (Nat × RuleDefinition)},
      l.rule.capturesFor list = some rules →
      Traces inventory underWay room (captures step s l.site list rules)
        (fun c st id => st.table.ReadBy c id) (fun _ _ => True) := by
    intro list rules hrules
    obtain ⟨hmem, hparts⟩ := l.mem_parts_of_capturesFor hrules
    exact captures_traces hsecures hstep hs (fun p hp => hclosed l hl p (hparts p hp))
      (fun p hp hlimit => ⟨l, hl, rules, hmem, p, hp, hlimit, rfl⟩)
  unfold capturesOr
  split
  · next rules => exact hlisted (hown rules rfl)
  · cases hcommon : l.rule.captures with
    | none =>
      exact captures_traces hsecures hstep hs (fun p hp => absurd hp List.not_mem_nil)
        (fun p hp => absurd hp List.not_mem_nil)
    | some rules => exact hlisted hcommon

/-- Two lists of groups and the rules inside, for a rule between two patterns. -/
theorem Traces.delimited {first second : Compile CaptureRules} {third : Compile Inside}
    {f : CaptureRules → CaptureRules → Inside → RuleBody}
    (hfirst : Traces inventory underWay room first (fun c st id => st.table.ReadBy c id)
      (fun _ _ => True))
    (hsecond : Traces inventory underWay room second (fun c st id => st.table.ReadBy c id)
      (fun _ _ => True))
    (hthird : Traces inventory underWay room third (fun i _ id => id ∈ i.rules)
      (fun i st => ∀ id ∈ i.rules, IsKept underWay id st))
    (hf : ∀ c c' i, (f c c' i).listed = i.rules ∧ (f c c' i).groupRules = [c, c']) :
    Traces inventory underWay room (do return f (← first) (← second) (← third))
      (fun b st id => id ∈ b.listed ∨ ∃ c ∈ b.groupRules, st.table.ReadBy c id)
      (fun b st => ∀ id ∈ b.listed, IsKept underWay id st) := by
  have hread : ∀ (c : CaptureRules) (id : RuleId), Lasts (fun st => st.table.ReadBy c id) :=
    fun c id st st' hextends h => h.mono hextends.rules
  have htrue : Lasts (fun _ => True) := fun _ _ _ h => h
  intro st
  refine Secures.bind (hfirst st) fun c => ?_
  refine Secures.bind (hsecond.after (hread c) htrue) fun c' => ?_
  have hboth : ∀ id, Lasts (fun st => st.table.ReadBy c id ∨ st.table.ReadBy c' id) :=
    fun id st st' hextends h =>
      h.imp (hread c id st st' hextends) (hread c' id st st' hextends)
  refine Secures.bind ((hthird.after hboth htrue).mono (fun _ h => ⟨h.1, trivial⟩)
    (fun _ _ h => h)) fun i => .pure fun st' h => ?_
  obtain ⟨hlisted, hgroups⟩ := hf c c' i
  dsimp only
  rw [hlisted, hgroups]
  refine ⟨h.1.mono fun id hid => ?_, h.2.2⟩
  obtain (hc | hc') | hi := hid
  · exact .inr ⟨c, List.mem_cons_self, hc⟩
  · exact .inr ⟨c', List.mem_cons_of_mem _ List.mem_cons_self, hc'⟩
  · exact .inl hi

/-- **What a rule does** is traced to what the rule will lead on to, once it is complete. -/
theorem body_traces (hinv : Inventoried inventory catalog root)
    (hsecures : StepSecures inventory underWay room step)
    (hstep : StepTraces inventory underWay room step) (hs : s.Within inventory)
    (hl : l ∈ inventory) (number : RuleId) :
    Traces inventory underWay room (body catalog root step s l number)
      (fun b st id => id ∈ b.listed ∨ ∃ c ∈ b.groupRules, st.table.ReadBy c id)
      (fun b st => ∀ id ∈ b.listed, IsKept underWay id st) := by
  have hpatterns : ∀ {s : Sight}, s.Within inventory →
      Traces inventory underWay room
        (inside catalog root step s (locatePatterns l.site (l.rule.patterns.getD [])))
        (fun i _ id => id ∈ i.rules) (fun i st => ∀ id ∈ i.rules, IsKept underWay id st) :=
    fun hs => inside_traces hinv hsecures hstep hs fun l' hl' _ =>
      hinv.closed l hl _ (List.mem_append_left _ (List.mem_append_right _ hl'))
  have hcaptures : ∀ {list : CaptureList} {own : Option (List (Nat × RuleDefinition))},
      (∀ rules ∈ own, l.rule.capturesFor list = some rules) →
      Traces inventory underWay room (capturesOr step s l list own)
        (fun c st id => st.table.ReadBy c id) (fun _ _ => True) :=
    fun hown => capturesOr_traces hsecures hstep hinv.closed hs hl hown
  unfold body
  dsimp only
  split
  · refine fun st => Secures.bind (hcaptures (fun rules h => absurd h (Option.not_mem_none rules))
      st) fun c => .pure fun st' h => ⟨h.1.mono fun id hid => ?_, ?_⟩
    · exact .inr ⟨c, List.mem_cons_self, hid⟩
    · exact fun id hid => absurd hid List.not_mem_nil
  · split
    · exact .delimited (hcaptures fun _ h => h) (hcaptures fun _ h => h) (hpatterns hs)
        fun _ _ _ => ⟨rfl, rfl⟩
    · exact .delimited (hcaptures fun _ h => h) (hcaptures fun _ h => h) (hpatterns hs)
        fun _ _ _ => ⟨rfl, rfl⟩
  · have hsight := hs.inside hinv.closed hl
    have hchoice : ∀ {x : Compile Inside}, Traces inventory underWay room x
        (fun i _ id => id ∈ i.rules) (fun i st => ∀ id ∈ i.rules, IsKept underWay id st) →
        Traces inventory underWay room (do return .choice (← x) : Compile RuleBody)
          (fun b st id => id ∈ b.listed ∨ ∃ c ∈ b.groupRules, st.table.ReadBy c id)
          (fun b st => ∀ id ∈ b.listed, IsKept underWay id st) :=
      fun hx st => Secures.bind (hx st) fun i => .pure fun st' h =>
        ⟨h.1.mono fun _ => .inl, h.2⟩
    split
    · refine hchoice (inside_traces hinv hsecures hstep hsight fun l' hl' href => ?_)
      rw [List.mem_singleton.1 hl'] at href
      cases href
    · exact hchoice (hpatterns hsight)

end Parts

/-! ## Compiling a rule -/

section Completing

variable {inventory : List Located} {underWay : RuleId → Prop} {st st' : Compilation}
  {site : Site} {r : Rule} {outer inner : RuleId}

/-- Another rule has the list that it had before one was completed. -/
theorem lists_of_completing {next : RuleId} (htaken : st'.table.Taken next) (hne : outer ≠ next)
    (hlists : (st'.completing next r).table.Lists outer inner) : st'.table.Lists outer inner := by
  obtain ⟨rule, hrule, hinner⟩ := hlists
  rw [RuleTable.get?_set htaken, if_neg hne] at hrule
  exact ⟨rule, hrule, hinner⟩

section Inside

variable (hsince : (st.taking site).Since
    (fun id => id ∈ r.body.listed ∨ ∃ c ∈ r.body.groupRules, st'.table.ReadBy c id) st')
  (horder : st'.InOrder inventory (fun id => underWay id ∨ id = st.table.next))
  (hdone : st'.Extends (st'.completing st.table.next r))
include hsince horder hdone

/-- **What has been completed inside a rule** is led on to from it, once it is complete, or stands
behind the groups of a void rule further inside. -/
theorem leadsOn_or_behind_of_completing (hnone : st.table.get? outer = none)
    (hne : outer ≠ st.table.next)
    (hlists : (st'.completing st.table.next r).table.Lists outer inner) :
    Relation.ReflTransGen (st'.completing st.table.next r).table.LeadsOn st.table.next outer ∨
      ∃ void, (st'.completing st.table.next r).table.Void void ∧
        st.table.next.number < void.number ∧
        (st'.completing st.table.next r).table.Behind void outer := by
  have htaken : st'.table.Taken st.table.next := horder.taken _ (.inr rfl)
  have hnext : (st'.completing st.table.next r).table.get? st.table.next = some r :=
    (RuleTable.get?_set htaken r _).trans (if_pos rfl)
  have hsize : (st.taking site).table.size = st.table.next.number := RuleTable.size_push ..
  have hincomplete : (st.taking site).table.get? outer = none := by
    rw [RuleTable.get?_push, if_neg hne, hnone]
  obtain ⟨id, hstart, -, hleads⟩ | ⟨void, hvoid, hnew, hbehind⟩ :=
    hsince.reached outer inner hincomplete (lists_of_completing htaken hne hlists)
  · have hon : (st'.completing st.table.next r).table.LeadsOn st.table.next id := by
      obtain hid | ⟨c, hc, hread⟩ := hstart
      · exact .inl ⟨r, hnext, hid⟩
      · exact .inr ⟨r, hnext, c, hc, hread.mono hdone.rules⟩
    exact .inl (.head hon (RuleTable.leadsOn_mono hdone.rules hleads))
  · exact .inr ⟨void, hvoid.mono hdone.rules, hsize ▸ hnew, hbehind.mono hdone.rules⟩

/-- **Who lists a rule that turns out to be void** has been completed inside it, by way of a group:
its own, or one of a void rule further inside. -/
theorem behind_of_lists_completed (htake : st.Extends (st.taking site))
    (hbefore : st.InOrder inventory underWay)
    (hvoid : (st'.completing st.table.next r).table.Void st.table.next)
    (hlists : (st'.completing st.table.next r).table.Lists outer st.table.next) :
    ∃ void, (st'.completing st.table.next r).table.Void void ∧
      st.table.next.number ≤ void.number ∧
      (st'.completing st.table.next r).table.Behind void outer := by
  have hne : outer ≠ st.table.next := by
    rintro rfl
    exact hvoid.not_lists hlists
  have hnone : st.table.get? outer = none := by
    -- a rule that was complete before refers to no number that had not been taken
    refine Option.eq_none_iff_forall_ne_some.2 fun rule hold => ?_
    obtain ⟨rule', hrule', hmem⟩ := hlists
    have hsame := hdone.rules _ _ (hsince.goesOn.rules _ _ (htake.rules _ _ hold))
    obtain rfl := Option.some.inj (hsame.symm.trans hrule')
    exact st.table.next_not_taken ((hbefore.refers _ _ hold).of_mem_listed hmem)
  obtain hleads | ⟨void, hvoid', hlt, hbehind⟩ :=
    leadsOn_or_behind_of_completing hsince horder hdone hnone hne hlists
  · exact ⟨_, hvoid, Nat.le_refl _, hvoid.behind hleads hlists⟩
  · exact ⟨void, hvoid', Nat.le_of_lt hlt, hbehind⟩

end Inside

/-- A rule that is completed lists no other void rule: the numbers in its list were kept. -/
theorem not_void_of_completing
    (hkept : ∀ id ∈ r.body.listed, IsKept (fun id => underWay id ∨ id = st.table.next) id st')
    (horder : st'.InOrder inventory (fun id => underWay id ∨ id = st.table.next))
    (hlists : (st'.completing st.table.next r).table.Lists st.table.next inner) :
    ¬ st'.table.Void inner := by
  have htaken : st'.table.Taken st.table.next := horder.taken _ (.inr rfl)
  rintro ⟨rule, hrule, hvoid⟩
  obtain ⟨rule', hrule', hmem⟩ := hlists
  rw [RuleTable.get?_set htaken, if_pos rfl] at hrule'
  obtain rfl := Option.some.inj hrule'
  obtain hunder | ⟨rule', hrule', hfull⟩ := hkept inner hmem
  · have hhole := (horder.holes inner (horder.taken inner hunder)).2 hunder
    rw [hhole] at hrule
    cases hrule
  · obtain rfl := Option.some.inj (hrule'.symm.trans hrule)
    rw [hfull] at hvoid
    cases hvoid

/-- **A rule is completed**, and with it all that has been completed inside it, to which it leads
on. -/
theorem since_completing (htake : st.Extends (st.taking site))
    (hsince : (st.taking site).Since
      (fun id => id ∈ r.body.listed ∨ ∃ c ∈ r.body.groupRules, st'.table.ReadBy c id) st')
    (hkept : ∀ id ∈ r.body.listed, IsKept (fun id => underWay id ∨ id = st.table.next) id st')
    (hbefore : st.InOrder inventory underWay)
    (horder : st'.InOrder inventory (fun id => underWay id ∨ id = st.table.next))
    (hdone : st'.Extends (st'.completing st.table.next r)) :
    st.Since (· = st.table.next) (st'.completing st.table.next r) := by
  have htaken : st'.table.Taken st.table.next := horder.taken _ (.inr rfl)
  have hnumber : st.table.next.number = st.table.size + 1 := rfl
  refine ⟨(htake.trans hsince.goesOn).trans hdone, fun outer inner hlists hvoid => ?_,
    fun outer inner hnone hlists => ?_⟩
  · by_cases hinner : inner = st.table.next
    · subst hinner
      exact behind_of_lists_completed hsince horder hdone htake hbefore hvoid hlists
    have hvoid' : st'.table.Void inner := by
      obtain ⟨rule, hrule, hisVoid⟩ := hvoid
      rw [RuleTable.get?_set htaken, if_neg hinner] at hrule
      exact ⟨rule, hrule, hisVoid⟩
    by_cases hne : outer = st.table.next
    · exact absurd hvoid' (not_void_of_completing hkept horder (hne ▸ hlists))
    · obtain ⟨void, hvoid, hle, hbehind⟩ :=
        hsince.judged outer inner (lists_of_completing htaken hne hlists) hvoid'
      exact ⟨void, hvoid.mono hdone.rules, hle, hbehind.mono hdone.rules⟩
  · by_cases hne : outer = st.table.next
    · exact .inl ⟨_, rfl, Nat.lt_succ_self _, hne ▸ .refl⟩
    · obtain hleads | ⟨void, hvoid, hlt, hbehind⟩ :=
        leadsOn_or_behind_of_completing hsince horder hdone hnone hne hlists
      · exact .inl ⟨_, rfl, Nat.lt_succ_self _, hleads⟩
      · exact .inr ⟨void, hvoid, by omega, hbehind⟩

end Completing

/-- **Compiling a rule traces** all that it completes. The induction is on the depth, as for what
compiling secures. -/
theorem rule_traces {inventory : List Located} {catalog : Catalog} {root : Definition}
    (hinv : Inventoried inventory catalog root) (depth : Nat) (underWay : RuleId → Prop) :
    StepTraces inventory underWay depth (rule catalog root depth) := by
  induction depth generalizing underWay with
  | zero => exact fun s l _ _ _ st hst _ => absurd hst.room (Nat.not_lt_zero _)
  | succ depth ih =>
    rintro s l hs hl _ st hst ⟨rfl, hjudged⟩
    cases hnumber : Keyed.get? l.site st.numbers with
    | some id =>
      rw [rule, EStateM.run_bind, EStateM.run_get]
      dsimp only
      rw [hnumber]
      exact ⟨.refl _, hst.inOrder, .of_table_eq hjudged (.refl _) rfl, trivial⟩
    | none =>
      have hsecures := rule_secures hinv depth (fun id => underWay id ∨ id = st.table.next)
      obtain ⟨htake, -⟩ :=
        hst.inOrder.take (Keyed.not_mem_keys_of_get?_eq_none hnumber)
      have htaking : st.Since (fun _ => False) (st.taking l.site) :=
        .of_extends hjudged htake fun id rule hrule => by
          rw [RuleTable.get?_push] at hrule
          split at hrule
          · cases hrule
          · exact .inl hrule
      have hbody := (body_traces hinv hsecures (ih _) hs hl st.table.next
        (st.taking l.site)).and (body_secures hinv hsecures hs hl st.table.next)
      exact rule_takes hl hnumber (hbody.mono (fun _ h => ⟨h, trivial⟩) fun b st' h => h)
        (fun _ => ⟨rfl, htaking.judged⟩) (fun st' r h horder _ hdone =>
          ⟨since_completing htake h.1 h.2 hst.inOrder horder hdone, trivial⟩) st hst rfl

end Compile

end Highlight.Grammar
