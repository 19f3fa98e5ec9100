import Highlight.Proofs.Voids

/-!
# Which void rules are listed

Void rules are to be left out of all lists. By the time that a grammar is compiled they are, but for
those that are listed behind the groups of a void rule. So whether any is listed can be told by
looking there, and no void rule is listed if none has a group that is read on.

What is listed otherwise depends on the order of the rules. A void rule that is referred to first
is compiled first, and with it a rule that reads on a group and refers back to it. Then it is
listed, and opens a region. If the other rule is referred to first, the void rule is complete by the
time that it would be listed, and is left out.
-/

namespace Highlight.Grammar

open Compilation

namespace Compile

/-! ## Compiling a grammar -/

section Injections

variable {inventory : List Located} {underWay : RuleId → Prop} {room : Nat} {catalog : Catalog}
  {root : Definition} {step : Step}

/-- Void rules are listed behind groups only, after a step as before it. -/
theorem Traces.judged {α : Type} {x : Compile α} {starts : α → Compilation → RuleId → Prop}
    {Q : α → Compilation → Prop} (h : Traces inventory underWay room x starts Q) :
    Secures inventory underWay room Judged x (fun a st => st.Judged ∧ Q a st) :=
  fun st hst hjudged =>
    (h st).mono (fun _ h => h) (fun _ _ h => ⟨h.1.judged, h.2⟩) st hst ⟨rfl, hjudged⟩

theorem injectedGrammar_judged (hinv : Inventoried inventory catalog root)
    (hstep : StepTraces inventory underWay room step) (scope : String) :
    Secures inventory underWay room Judged (injectedGrammar catalog root step scope)
      (fun _ st => st.Judged) := by
  unfold injectedGrammar
  refine Secures.bind (openGrammar_traces hinv scope
    (fun b hb => absurd hb (Option.not_mem_none b))).judged (fun o st hst h => ?_)
  cases o with
  | none => exact ⟨.refl st, hst.inOrder, h.1⟩
  | some o =>
    have ho := h.2 o rfl
    dsimp only
    cases o.self.injectionSelector with
    | none => exact ⟨.refl st, hst.inOrder, h.1⟩
    | some selector =>
      exact Secures.bind (hstep _ _ ho.sight ho.self.whole).judged
        (fun id => .pure fun _ h => h.1) st hst h.1

theorem everything_judged (hinv : Inventoried inventory catalog root)
    (hstep : StepTraces inventory underWay room
      (rule catalog root (catalog.size + root.size + 1))) :
    Secures inventory underWay room Judged (everything catalog root) (fun _ st => st.Judged) := by
  have hroot : Opened.Within inventory ⟨root, root⟩ := ⟨hinv.root, hinv.root⟩
  unfold everything
  refine Secures.bind (hstep _ _ hroot.sight hinv.root.whole).judged fun id => ?_
  refine Secures.bind (Q := fun _ st => st.Judged) ?_ fun injections => .pure fun _ h => h
  unfold injections ownInjections
  refine Secures.bind (Q := fun _ st => st.Judged) ?_ fun own => ?_
  · refine Secures.bind ((Secures.mapM_forall₂ (P := Judged) (R := fun _ _ _ => True)
      (fun p hp => ?_) (fun _ _ _ _ _ h => h)).mono (fun _ h => h.1) (fun _ _ h => h))
        fun found => .pure fun _ h => h.1
    have hmem : p.2 ∈ inventory := hinv.root.injection ((Order.perm_sort _ _).mem_iff.1 hp)
    exact Secures.bind (hstep _ _ hroot.sight hmem).judged
      fun id => .pure fun _ h => ⟨h.1, trivial⟩
  · refine Secures.bind (Secures.mapM_forall₂ (P := Judged) (R := fun _ _ _ => True)
      (fun scope _ => ?_) (fun _ _ _ _ _ h => h)) fun others => .pure fun _ h => h.1
    exact (injectedGrammar_judged hinv hstep scope).mono (fun _ h => h)
      (fun _ _ h => ⟨h, trivial⟩)

end Injections

end Compile

namespace RuleTable

/-- A rule in the table has a place. -/
theorem exists_get?_iff {t : RuleTable} {rule : Rule} :
    (∃ id, t.get? id = some rule) ↔ some rule ∈ t.rules.toList := by
  constructor
  · rintro ⟨id, hid⟩
    obtain ⟨n, rfl, -⟩ := exists_place hid
    rw [get?_eq, Option.join_eq_some_iff] at hid
    exact List.mem_of_getElem? hid
  · intro hmem
    obtain ⟨n, hn⟩ := List.getElem?_of_mem hmem
    exact ⟨⟨n + 1⟩, by rw [get?_eq, hn]; rfl⟩

instance (t : RuleTable) : Decidable t.DropsVoid :=
  decidable_of_iff (∀ rule ∈ t.rules.toList.filterMap id, ∀ inner ∈ rule.body.listed,
      (t.get? inner).any (·.isVoid) = false) <| by
    have hvoid : ∀ inner, (t.get? inner).any (·.isVoid) = false ↔ ¬ t.Void inner := by
      intro inner
      rw [← Bool.not_eq_true, Option.any_eq_true, Void]
    simp only [hvoid, List.mem_filterMap, id]
    constructor
    · rintro h outer inner ⟨rule, hrule, hinner⟩
      exact h rule ⟨_, exists_get?_iff.1 ⟨outer, hrule⟩, rfl⟩ inner hinner
    · rintro h rule ⟨_, hmem, rfl⟩ inner hinner
      obtain ⟨outer, houter⟩ := exists_get?_iff.2 hmem
      exact h outer inner ⟨rule, houter, hinner⟩

end RuleTable

namespace Ruleset

variable {catalog : Catalog} {root : Definition} {rules : Ruleset}

/-- **Void rules are listed behind groups only.** Who lists a void rule stands behind the groups of
a void rule that took its number no earlier. -/
theorem exists_behind_of_lists (h : ofDefinition catalog root = .ok rules) {outer inner : RuleId}
    (hlists : rules.table.Lists outer inner) (hvoid : rules.table.Void inner) :
    ∃ void, rules.table.Void void ∧ inner.number ≤ void.number ∧
      rules.table.Behind void outer := by
  have hinv := inventoried catalog root
  have hempty : ({} : Compilation).Judged := by
    rintro outer inner ⟨rule, hrule, -⟩
    obtain ⟨n, -, hn⟩ := RuleTable.exists_place hrule
    exact absurd hn (Nat.not_lt_zero n)
  have hrun := Compile.everything_judged hinv
    (Compile.rule_traces hinv (catalog.size + root.size + 1) (fun _ => False)) {}
    (fit_empty catalog root) hempty
  rw [ofDefinition_eq] at h
  cases hx : (Compile.everything catalog root).run {} with
  | error e st =>
    rw [hx] at h
    cases h
  | ok p st =>
    rw [hx] at h
    obtain rfl := Except.ok.inj h
    simp only [hx] at hrun
    exact hrun.2.2 outer inner hlists hvoid

/-- **No void rule is listed** just if none is that stands behind the groups of a void rule. -/
theorem dropsVoid_iff (h : ofDefinition catalog root = .ok rules) :
    rules.table.DropsVoid ↔ ∀ void outer inner, rules.table.Void void →
      rules.table.Behind void outer → inner.number ≤ void.number →
      rules.table.Lists outer inner → ¬ rules.table.Void inner := by
  refine ⟨fun hdrops void outer inner _ _ _ => hdrops outer inner, fun hbehind => ?_⟩
  intro outer inner hlists hvoid
  obtain ⟨void, hvoid', hle, hstands⟩ := exists_behind_of_lists h hlists hvoid
  exact hbehind void outer inner hvoid' hstands hle hlists hvoid

/-- **No void rule is listed if no group of a void rule is read on.** -/
theorem dropsVoid_of_no_groups (h : ofDefinition catalog root = .ok rules)
    (hgroups : ∀ void within, rules.table.Void void → ¬ rules.table.ReadsOn void within) :
    rules.table.DropsVoid := by
  intro outer inner hlists hvoid
  obtain ⟨void, hvoid', -, within, hreads, -⟩ := exists_behind_of_lists h hlists hvoid
  exact hgroups void within hvoid' hreads

/-- A region of which the rule inside is missing, and a helper that reads on the group of its
opening pattern, and refers back to it. -/
def regionFirst : Definition where
  scopeName := "text"
  patterns := [{ reference := some "#region" }, { reference := some "#helper" }]
  repository := [
    ("region", {
      name := some "region"
      opening := some "x(b)"
      closing := some "z"
      openingCaptures := some [(1, { patterns := some [{ reference := some "#helper" }] })]
      patterns := some [{ reference := some "#missing" }] }),
    ("helper", {
      patterns := some [
        { reference := some "#region" },
        { pattern := some "b", name := some "letter" }] })]

/-- The same two rules, with the helper referred to first. -/
def helperFirst : Definition :=
  { regionFirst with patterns := regionFirst.patterns.reverse }

/-- With the helper first, the region is left out everywhere, and so also behind its group. -/
theorem dropsVoid_helperFirst : ∃ rules, ofDefinition {} helperFirst = .ok rules ∧
    rules.table.Void ⟨3⟩ ∧ rules.table.DropsVoid ∧
    ∀ void outer inner, rules.table.Void void → rules.table.Behind void outer →
      inner.number ≤ void.number → rules.table.Lists outer inner → ¬ rules.table.Void inner := by
  have hrules : ofDefinition {} helperFirst = .ok (orEmpty (ofDefinition {} helperFirst)) :=
    eq_ok_orEmpty (by decide +kernel)
  have hvoid : ((orEmpty (ofDefinition {} helperFirst)).table.get? ⟨3⟩).any (·.isVoid) = true := by
    decide +kernel
  have hdrops : (orEmpty (ofDefinition {} helperFirst)).table.DropsVoid := by decide +kernel
  exact ⟨_, hrules, (Option.any_eq_true _ _).1 hvoid, hdrops, (dropsVoid_iff hrules).1 hdrops⟩

/-- **A void rule is listed** if a rule that reads on one of its groups refers back to it, and is
compiled inside it. Whether it is depends on which of the two is referred to first. -/
theorem not_dropsVoid_regionFirst : ∃ rules rules', ofDefinition {} regionFirst = .ok rules ∧
    ofDefinition {} helperFirst = .ok rules' ∧ ¬ rules.table.DropsVoid ∧
    rules'.table.DropsVoid :=
  ⟨_, _, eq_ok_orEmpty (by decide +kernel), eq_ok_orEmpty (by decide +kernel), by decide +kernel,
    by decide +kernel⟩

end Ruleset

end Highlight.Grammar
