import Highlight.Grammar.Decoder
import Highlight.Proofs.Spending

/-!
# What compiling has room for

Two things that compiling counts have a limit. The numbers of rules are words of four bytes. And the
rules for the groups of a pattern are looked up in a list that has a place of eight bytes for every
group up to the greatest one that has a rule, and no list is longer than a signed word of eight
bytes tells. The numbers of groups are read as they are written, so that nothing keeps a grammar
from asking for a longer list.

Loading a grammar stays in range just if all lists of the rules that compiling it meets have room,
and these rules do not take more numbers than there are. Grammars that are not very long take few
numbers, since no rule is compiled with more than two lists of groups.
-/

namespace Highlight.Grammar

/-! ## How long lists of groups are -/

namespace CaptureRules

theorem length_le_iff {c : CaptureRules} {n : Nat} : c.length ≤ n ↔ ∀ p ∈ c.rules, p.1 < n := by
  have hfold : ∀ (rules : List (Nat × RuleId)) (m : Nat),
      (rules.map (·.1 + 1)).foldl max m ≤ n ↔ m ≤ n ∧ ∀ p ∈ rules, p.1 < n := by
    intro rules
    induction rules with
    | nil => simp
    | cons p rules ih =>
      intro m
      rw [List.map_cons, List.foldl_cons, ih, List.forall_mem_cons, max_le_iff, and_assoc]
      rfl
  rw [length, hfold]
  exact and_iff_right (Nat.zero_le n)

/-- Each group has a place in the list. -/
theorem lt_length {c : CaptureRules} {p : Nat × RuleId} (h : p ∈ c.rules) : p.1 < c.length :=
  length_le_iff.1 (Nat.le_refl _) p h

theorem hasRoom_iff {c : CaptureRules} : HasRoom c.rules ↔ 8 * c.length < 2 ^ 63 := by
  have hlength : 8 * c.length < 2 ^ 63 ↔ c.length ≤ 2 ^ 60 - 1 := by omega
  rw [hlength, length_le_iff, HasRoom]
  exact forall₂_congr (fun p _ => by omega)

end CaptureRules

/-! ## How many numbers there are to take -/

namespace Located

/-- No rule is compiled with more than two lists of groups, and what is in them stands directly
inside the rule. -/
theorem groupNumbers_le (l : Located) : l.rule.groupNumbers ≤ 2 * l.parts.length := by
  have hlength : ∀ o d : Option (List (Nat × RuleDefinition)),
      (o.getD (d.getD [])).length ≤ (o.getD []).length + (d.getD []).length := by
    rintro (_ | o) d
    · exact Nat.le_add_left _ _
    · exact Nat.le_add_right _ _
  have hopening := hlength l.rule.openingCaptures l.rule.captures
  have hclosing := hlength l.rule.closingCaptures l.rule.captures
  have hcontinuing := hlength l.rule.continuingCaptures l.rule.captures
  have hparts : (l.rule.captures.getD []).length + (l.rule.openingCaptures.getD []).length +
      (l.rule.closingCaptures.getD []).length + (l.rule.continuingCaptures.getD []).length ≤
      l.parts.length := by
    simp only [parts, locateCaptures, List.length_append, List.length_map]
    omega
  unfold RuleDefinition.groupNumbers RuleDefinition.groupLists
  dsimp only
  split
  · rw [List.map_singleton, List.sum_singleton]
    omega
  · split
    · rw [List.map_cons, List.map_singleton, List.sum_cons, List.sum_singleton]
      omega
    · rw [List.map_cons, List.map_singleton, List.sum_cons, List.sum_singleton]
      omega
  · exact Nat.zero_le _

/-- How many rules stand directly inside some rules. -/
def partsOf (ls : List Located) : Nat := (ls.map (·.parts.length)).sum

theorem numbersOf_le (ls : List Located) : numbersOf ls ≤ ls.length + 2 * partsOf ls := by
  induction ls with
  | nil => exact Nat.le_refl 0
  | cons l ls ih =>
    have hl := l.groupNumbers_le
    simp only [numbersOf, partsOf, List.map_cons, List.sum_cons, List.length_cons] at ih ⊢
    omega

theorem partsOf_append (ls ls' : List Located) :
    partsOf (ls ++ ls') = partsOf ls + partsOf ls' := by
  simp [partsOf]

theorem partsOf_flatMap_all {ls : List Located}
    (h : ∀ l ∈ ls, partsOf l.all + 1 = l.all.length) :
    partsOf (ls.flatMap all) + ls.length = (ls.flatMap all).length := by
  induction ls with
  | nil => rfl
  | cons l ls ih =>
    obtain ⟨hl, hls⟩ := List.forall_mem_cons.1 h
    have hrest := ih hls
    rw [List.flatMap_cons, partsOf_append, List.length_append, List.length_cons]
    omega

/-- In the inventory of a rule, all but the rule itself stand directly inside one of the rules. -/
theorem partsOf_all (l : Located) : partsOf l.all + 1 = l.all.length := by
  induction l using all.induct with
  | case1 l ih =>
    rw [all_eq, List.length_cons, ← partsOf_flatMap_all (fun p hp => ih ⟨p, hp⟩)]
    simp only [partsOf, List.map_cons, List.sum_cons]
    omega

end Located

theorem Definition.partsOf_all_le (d : Definition) : Located.partsOf d.all ≤ d.all.length := by
  have hwhole : d.whole.parts.length ≤ d.parts.length := by
    simp [Located.parts, whole, locateCaptures, locateEntries, parts, locatedPatterns,
      locatePatterns]
  have hparts := Located.partsOf_flatMap_all (fun l (_ : l ∈ d.parts) => l.partsOf_all)
  have hcons : Located.partsOf d.all =
      d.whole.parts.length + Located.partsOf (d.parts.flatMap Located.all) := rfl
  rw [hcons, all, List.length_cons]
  omega

theorem Catalog.partsOf_all_le (c : Catalog) : Located.partsOf c.all ≤ c.all.length := by
  rw [all]
  induction c.grammars with
  | nil => exact Nat.le_refl 0
  | cons p grammars ih =>
    have hp := p.2.partsOf_all_le
    rw [List.flatMap_cons, Located.partsOf_append, List.length_append]
    omega

/-! ## Loading in range -/

/-- **A compiled grammar is in range.** -/
structure Ruleset.InRange (rules : Ruleset) : Prop where
  /-- The numbers of its rules are words of four bytes. -/
  numbers : rules.table.size < 2 ^ 32
  /-- All places of the table have rules. -/
  places : ∀ n < rules.table.size, (rules.table.get? ⟨n + 1⟩).isSome
  /-- The list of all groups up to the greatest that has a rule is not longer than a signed word
  tells, and all groups that have rules have places in it. -/
  groups : ∀ id rule, rules.table.get? id = some rule → ∀ c ∈ rule.body.groupRules,
    8 * c.length < 2 ^ 63 ∧ ∀ p ∈ c.rules, p.1 < c.length

namespace Definition

/-- **Loading a grammar stays in range**: it can be compiled, and nothing in what that yields is out
of range. -/
def LoadsInRange (catalog : Catalog) (root : Definition) : Prop :=
  ∃ rules, Ruleset.ofDefinition catalog root = .ok rules ∧ rules.InRange

/-- What compiling all of a grammar meets and spends. -/
theorem exists_met (catalog : Catalog) (root : Definition) :
    ∃ met st, Compile.Met (root.all ++ catalog.all) met st ∧
      ((∃ p, (Compile.everything catalog root).run {} = .ok p st ∧ (∀ l ∈ met, l.HasRoom) ∧
          st.table.size = Located.numbersOf met) ∨
        ∃ e, (Compile.everything catalog root).run {} = .error e st ∧ ∃ l ∈ met, ¬ l.HasRoom) := by
  have hspends := Compile.everything_spends (Ruleset.inventoried catalog root) [] {}
    (List.nil_subset _) (Compile.met_empty _)
  cases hrun : (Compile.everything catalog root).run {} with
  | ok p st =>
    simp only [hrun] at hspends
    obtain ⟨-, met, hmet, hroom, hsize⟩ := hspends
    rw [List.append_nil] at hmet
    refine ⟨met, st, hmet, .inl ⟨p, rfl, hroom, ?_⟩⟩
    rw [hsize]
    exact Nat.zero_add _
  | error e st =>
    simp only [hrun] at hspends
    obtain ⟨met, hmet, herror⟩ := hspends
    rw [List.append_nil] at hmet herror
    refine ⟨met, st, hmet, .inr ⟨e, rfl, herror.resolve_left ?_⟩⟩
    -- compilation is never short of depth
    rintro rfl
    have hfails : Ruleset.ofDefinition catalog root = .error .depth := by
      rw [Ruleset.ofDefinition_eq, hrun]
    obtain ⟨_, _, _, _, _, _, _, hdepth⟩ := Ruleset.refused_of_ofDefinition_error hfails
    cases hdepth

/-- What compiling yields is in range if it did not take more numbers than there are. -/
theorem inRange_of_run {catalog : Catalog} {root : Definition} {met : List Located}
    {p : RuleId × List Injection} {st : Compilation}
    (hrun : (Compile.everything catalog root).run {} = .ok p st)
    (hmet : Compile.Met (root.all ++ catalog.all) met st) (hsize : st.table.size < 2 ^ 32) :
    (⟨root.scopeName, p.1, st.table, p.2⟩ : Ruleset).InRange where
  numbers := hsize
  places := fun n hn => by
    have hsecures := Ruleset.everything_secures catalog root
    simp only [hrun] at hsecures
    have htaken : st.table.Taken ⟨n + 1⟩ := ⟨Nat.succ_pos n, hn⟩
    exact Option.isSome_iff_ne_none.2 (fun hnone => (hsecures.1.holes _ htaken).1 hnone)
  groups := fun id rule hid c hc =>
    ⟨CaptureRules.hasRoom_iff.1 (hmet.room id rule hid c hc), fun _ hp => CaptureRules.lt_length hp⟩

/-- **A grammar is loaded in range** if all rules that are written have room for their groups, and
there are not too many of them. -/
theorem loadsInRange_of_forall_hasRoom {catalog : Catalog} {root : Definition}
    (hroom : ∀ l ∈ root.all ++ catalog.all, l.HasRoom)
    (hsize : 3 * (root.size + catalog.size) < 2 ^ 32) : root.LoadsInRange catalog := by
  obtain ⟨met, st, hmet, ⟨p, hrun, -, hnumbers⟩ | ⟨e, -, l, hl, hnoroom⟩⟩ :=
    exists_met catalog root
  · refine ⟨_, by rw [Ruleset.ofDefinition_eq, hrun], inRange_of_run hrun hmet ?_⟩
    have hmet_le : Located.numbersOf met ≤ Located.numbersOf (root.all ++ catalog.all) := by
      obtain ⟨ls, hperm, hsub⟩ := (List.Nodup.of_map _ hmet.nodup).subperm hmet.within
      rw [Located.numbersOf, ← (hperm.map _).sum_eq]
      exact (hsub.map _).sum_le_sum (fun _ _ => Nat.zero_le _)
    have hroot := Located.numbersOf_le root.all
    have hcatalog := Located.numbersOf_le catalog.all
    have hroot' := root.partsOf_all_le
    have hcatalog' := catalog.partsOf_all_le
    rw [Located.numbersOf_append] at hmet_le
    rw [root.length_all] at hroot hroot'
    rw [catalog.length_all] at hcatalog hcatalog'
    omega
  · exact absurd (hroom l (hmet.within hl)) hnoroom

/-- Even a rule for group 912, which no pattern needs, does no harm. -/
example : LoadsInRange {} {
    scopeName := "text"
    patterns := [{
      opening := some "a"
      captures := some [(912, { name := some "x" })] }] } :=
  loadsInRange_of_forall_hasRoom (by decide +kernel) (by decide +kernel)

/-- **Loading a grammar stays in range** just if all rules that compiling it meets have room for
their groups, and do not take more numbers than there are. -/
theorem loadsInRange_iff (catalog : Catalog) (root : Definition) :
    ∃ (met : List Located) (st : Compilation), met ⊆ root.all ++ catalog.all ∧
      Compile.Leaves catalog root st ∧ met.map (·.site) = st.numbers.map (·.1) ∧
      (met.map (·.site)).Nodup ∧
      (root.LoadsInRange catalog ↔
        (∀ l ∈ met, l.HasRoom) ∧ Located.numbersOf met < 2 ^ 32) := by
  obtain ⟨met, st, hmet, ⟨p, hrun, hroom, hsize⟩ | ⟨e, hrun, l, hl, hroom⟩⟩ :=
    exists_met catalog root
  · refine ⟨met, st, hmet.within, .inl ⟨p, hrun⟩, hmet.sites.symm, hmet.nodup, ?_⟩
    have hrules : Ruleset.ofDefinition catalog root =
        .ok ⟨root.scopeName, p.1, st.table, p.2⟩ := by
      rw [Ruleset.ofDefinition_eq, hrun]
    refine ⟨fun ⟨rules, hok, hin⟩ => ⟨hroom, ?_⟩, fun h => ⟨_, hrules, ?_⟩⟩
    · obtain rfl := Except.ok.inj (hrules.symm.trans hok)
      exact hsize ▸ hin.numbers
    · exact inRange_of_run hrun hmet (hsize.symm ▸ h.2)
  · refine ⟨met, st, hmet.within, .inr ⟨e, hrun⟩, hmet.sites.symm, hmet.nodup,
      fun ⟨rules, hok, _⟩ => ?_, fun h => absurd (h.1 l hl) hroom⟩
    rw [Ruleset.ofDefinition_eq, hrun] at hok
    cases hok

/-- A grammar as it is written, with a rule for a group that no pattern can have. -/
def greatGroupText : String :=
  "\x7b\"scopeName\":\"text\",\"patterns\":[\x7b\"begin\":\"a\",\"end\":\"b\"," ++
    "\"endCaptures\":\x7b\"18446744073709551615\":\x7b\"name\":\"x\"\x7d\x7d\x7d]\x7d"

/-- **Not all grammars that can be read are loaded in range**: the number of a group is read as it
is written, and this one asks for a list of 2^64 places. -/
theorem not_loadsInRange_greatGroup :
    ¬ ∀ (catalog : Catalog) (text : String) (root : Definition),
      Definition.ofText text = .ok root → root.LoadsInRange catalog := by
  intro h
  have hfails : ((Definition.ofText greatGroupText).toOption.map
      (fun root => (Ruleset.ofDefinition {} root).isOk)) = some false := by
    decide +kernel
  cases hread : Definition.ofText greatGroupText with
  | error e =>
    rw [hread] at hfails
    cases hfails
  | ok root =>
    obtain ⟨rules, hok, -⟩ := h {} greatGroupText root hread
    simp [hread, hok, Except.toOption, Except.isOk, Except.toBool] at hfails

end Definition

end Highlight.Grammar
