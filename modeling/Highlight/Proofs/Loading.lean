import Highlight.Proofs.Lookups
import Highlight.Scanner.Literal

/-!
# Loading a grammar with all that it includes

A grammar is loaded along with every grammar that it includes, so that no reference is left out
that the source has a grammar for. When the registry and the source have only plain grammars this
is so: all that compilation looks up has been asked for. It is put without speaking of single
lookups. Whatever else a catalog has or lacks, it compiles to the same rules, if it has the same
grammars for the scopes that were asked for.

It is not so for all grammars. What the rules for groups refer to is compiled, but not asked for,
and is left out even though the source has it.
-/

namespace Highlight

open Grammar

variable {σ : Type}

/-- All that is to be had is named as it is asked for if all that there is is. -/
theorem Grammar.NamedSupply.of_forall {c : Catalog} {source : Option Source}
    (hc : ∀ p ∈ c.grammars, p.2.scopeName = p.1)
    (hsource : ∀ s ∈ source, ∀ p ∈ s.grammars, p.2.scopeName = p.1) :
    NamedSupply (c.supply source) := by
  intro scope d h
  obtain h | ⟨-, h⟩ := Option.or_eq_some_iff.1 h
  · exact hc _ (Keyed.mem_of_get? h)
  · obtain ⟨s, hs, h⟩ := Option.bind_eq_some_iff.1 h
    exact hsource s hs _ (Keyed.mem_of_get? h)

/-- All that is to be had is plain if all that there is is. -/
theorem Grammar.PlainSupply.of_forall {c : Catalog} {source : Option Source}
    (hc : ∀ p ∈ c.grammars, p.2.scopeName = p.1 ∧ ∃ names, p.2.Plain names)
    (hsource : ∀ s ∈ source, ∀ p ∈ s.grammars, p.2.scopeName = p.1 ∧ ∃ names, p.2.Plain names) :
    PlainSupply (c.supply source) := by
  intro scope d h
  obtain h | ⟨-, h⟩ := Option.or_eq_some_iff.1 h
  · exact hc _ (Keyed.mem_of_get? h)
  · obtain ⟨s, hs, h⟩ := Option.bind_eq_some_iff.1 h
    exact hsource s hs _ (Keyed.mem_of_get? h)

/-- What is to be had stays the same throughout the rounds of fetching. -/
theorem Fetch.Settles.supply {source : Option Source} {full : String → Option Definition}
    (hfull : NamedSupply full) {f f' : Fetching} {d d' : Dependencies}
    (h : Fetch.Settles source f d f' d') (hf : ∀ s, f.catalog.supply source s = full s) :
    ∀ s, f'.catalog.supply source s = full s := by
  induction h with
  | done _ => exact hf
  | round _ _ ih => exact ih (Fetching.fetched_spec hfull hf _).1

namespace Registry

/-- What the registry, or else its source, has for a scope. -/
def supply (r : Registry σ) (scope : String) : Option Definition := r.catalog.supply r.source scope

/-- **Compilation looks up only what loading has asked for.** -/
structure LooksUpOnly (r r' : Registry σ) (requested : List String) (root : Definition)
    (rules : Ruleset) (d : Dependencies) : Prop where
  /-- The rounds of fetching have settled what is asked for. -/
  settles : Fetch.Settles r.source ⟨r.catalog, []⟩ (.ofRoot root.scopeName)
    ⟨r'.catalog, requested.reverse⟩ d
  /-- All that was to be had of it is in the catalog. -/
  got : ∀ s ∈ d.whole, r'.catalog.grammar? s = r.supply s
  /-- Every catalog that has the same of it, and no fewer rules, and the same grammars to be
  injected, is compiled to the same rules. -/
  compiled : ∀ c : Catalog, (∀ s ∈ d.whole, c.grammar? s = r.supply s) →
    c.injectionsInto root.scopeName = r'.catalog.injectionsInto root.scopeName →
    r'.catalog.size ≤ c.size → Ruleset.ofDefinition c root = .ok rules

/-- **Loading a grammar asks for all that its compilation looks up**, whatever plain grammars the
registry and its source have. -/
theorem looksUpOnly_of_load {r r' : Registry σ} {scope : String} {language : Nat}
    {configuration : Option Configuration} {h : Highlighter σ} {requested : List String}
    (hplain : PlainSupply r.supply)
    (hload : r.load scope language configuration = (.ok h, r', requested)) :
    ∃ root rules d, r.supply scope = some root ∧
      h = .make rules r.theme r.engine language configuration ∧
      r.LooksUpOnly r' requested root rules d := by
  unfold load at hload
  cases hrounds : (Fetch.rounds r.source r.roundLimit (.ofRoot scope)).run ⟨r.catalog, []⟩ with
  | error e f =>
    rw [hrounds] at hload
    simp at hload
  | ok _ f =>
  rw [hrounds] at hload
  dsimp only at hload
  obtain ⟨hmade, rfl, rfl⟩ : _ ∧ _ ∧ _ := by simpa only [Prod.mk.injEq] using hload
  obtain ⟨d, hsettles⟩ := Fetch.settles_of_rounds hrounds
  cases hroot : f.catalog.grammar? scope with
  | none => simp [hroot] at hmade
  | some root =>
  simp only [hroot] at hmade
  cases hrules : Ruleset.ofDefinition f.catalog root with
  | error e => simp [hrules] at hmade
  | ok rules =>
  simp only [hrules, Except.ok.injEq] at hmade
  have hsupply := hsettles.supply hplain.named (fun _ => rfl)
  have hfull : r.supply scope = some root :=
    (hsupply scope).symm.trans (Catalog.supply_of_grammar? hroot)
  obtain ⟨rfl, -⟩ := hplain scope root hfull
  have hinitial : Underway r.supply r.source root ⟨r.catalog, []⟩ (.ofRoot root.scopeName)
      (fun _ => False) := .initial (fun _ => rfl)
  obtain ⟨hgot, visited, hcovers⟩ := hinitial.covers hplain hfull hsettles
  refine ⟨root, rules, d, hfull, hmade.symm, ?_, hgot, fun c hc hinjections hsize => ?_⟩
  · rw [List.reverse_reverse]
    exact hsettles
  · exact Ruleset.ofDefinition_eq_of_covers hcovers
      (fun s hs => (hc s hs).trans (hgot s hs).symm) hinjections hsize hrules

/-- The registry that knows no grammar, with a source. -/
def ofSource (source : Source) : Registry Unit :=
  { Registry.empty (.literal Unit) with source := some source }

/-- A source of four grammars. The first refers to the second, also from inside a group by way of a
named rule of its own, the second refers to the base, and to a named rule of its own by the name of
the grammar. The third is injected into the first, and nothing asks for the last. -/
def letters : Source where
  grammars := [
    ("source.a", {
      scopeName := "source.a"
      patterns := [
        { pattern := some "ab"
          captures := some [(0, {
            patterns := some [{ reference := some "#letter" }, { reference := some "$self" }] })] },
        { reference := some "source.b" }]
      repository := [("letter", { pattern := some "a", name := some "letter" })] }),
    ("source.b", {
      scopeName := "source.b"
      patterns := [{ reference := some "$base" }, { reference := some "source.b#bee" }]
      repository := [("bee", { pattern := some "b", name := some "bee" })] }),
    ("source.c", {
      scopeName := "source.c"
      patterns := [{ reference := some "source.b" }]
      injectionSelector := some "letter" }),
    ("source.d", { scopeName := "source.d", patterns := [{ reference := some "source.a" }] })]
  injections := [("source.a", ["source.c"])]

theorem plain_letters : PlainSupply (ofSource letters).supply := by
  refine .of_forall (fun p hp => absurd hp List.not_mem_nil) (fun s hs p hp => ?_)
  obtain rfl := Option.some.inj hs
  have hall : ∀ p ∈ letters.grammars, p.2.scopeName = p.1 ∧ p.2.plainWith ["letter"] = true := by
    decide +kernel
  obtain ⟨hname, hletter⟩ := hall p hp
  exact ⟨hname, ["letter"], .of_plainWith hletter⟩

/-- Loading the first asks for three of the four, and the catalog of all four is compiled to the
same rules. -/
theorem looksUpOnly_of_load_letters :
    ∃ h r' root rules, (ofSource letters).load "source.a" 1 none =
        (.ok h, r', ["source.a", "source.b", "source.c"]) ∧
      (letters.grammar? "source.a") = some root ∧ h.reader.rules = rules ∧
      Ruleset.ofDefinition ⟨letters.grammars, letters.injections⟩ root = .ok rules := by
  have hplain := plain_letters
  have hload : ((ofSource letters).load "source.a" 1 none).1.isOk = true ∧
      ((ofSource letters).load "source.a" 1 none).2.2 = ["source.a", "source.b", "source.c"] ∧
      ((ofSource letters).load "source.a" 1 none).2.1.catalog.injectionsInto "source.a" =
        ["source.c"] ∧
      ((ofSource letters).load "source.a" 1 none).2.1.catalog.size ≤
        Catalog.size ⟨letters.grammars, letters.injections⟩ := by
    decide +kernel
  obtain ⟨hok, hrequested, hinjections, hsize⟩ := hload
  generalize hx : (ofSource letters).load "source.a" 1 none = x at *
  obtain ⟨made, r', requested⟩ := x
  obtain rfl : requested = ["source.a", "source.b", "source.c"] := hrequested
  cases made with
  | error e => simp [Except.isOk, Except.toBool] at hok
  | ok h =>
  obtain ⟨root, rules, d, hroot, rfl, hlooks⟩ := looksUpOnly_of_load hplain hx
  obtain ⟨hname, -⟩ := hplain _ _ hroot
  refine ⟨_, r', root, rules, rfl, hroot, rfl, hlooks.compiled _ (fun _ _ => rfl) ?_ hsize⟩
  rw [hname]
  exact hinjections.symm

/-- A source of two grammars. The first reads a group on by the second. -/
def grouped : Source where
  grammars := [
    ("source.a", {
      scopeName := "source.a"
      patterns := [{
        pattern := some "(a)"
        captures := some [(1, { patterns := some [{ reference := some "source.b" }] })] }] }),
    ("source.b", {
      scopeName := "source.b"
      patterns := [{ pattern := some "a", name := some "letter" }] })]

/-- **A grammar that only a group is read on by is left out**: it is not asked for, though the
source has it, and with it the grammar would be compiled to two rules more. -/
theorem not_looksUpOnly_grouped :
    ∃ h r', (ofSource grouped).load "source.a" 1 none = (.ok h, r', ["source.a"]) ∧
      (grouped.grammar? "source.b").isSome ∧ r'.catalog.grammar? "source.b" = none ∧
      h.reader.rules.table.size = 4 ∧
      ((ofSource grouped).supply "source.a").map (fun root =>
        (Ruleset.ofDefinition ⟨grouped.grammars, []⟩ root).map (·.table.size)) = some (.ok 6) ∧
      ¬ ∃ root rules d, (ofSource grouped).supply "source.a" = some root ∧
        h = .make rules (ofSource grouped).theme (ofSource grouped).engine 1 none ∧
        (ofSource grouped).LooksUpOnly r' ["source.a"] root rules d := by
  have hload : ((ofSource grouped).load "source.a" 1 none).1.toOption.map
        (·.reader.rules.table.size) = some 4 ∧
      ((ofSource grouped).load "source.a" 1 none).2.2 = ["source.a"] ∧
      (((ofSource grouped).load "source.a" 1 none).2.1.catalog.grammar? "source.b").isNone ∧
      ((ofSource grouped).load "source.a" 1 none).2.1.catalog.injectionsInto "source.a" = [] ∧
      ((ofSource grouped).load "source.a" 1 none).2.1.catalog.size ≤
        Catalog.size ⟨grouped.grammars, []⟩ := by
    decide +kernel
  have hname : ((ofSource grouped).supply "source.a").map (·.scopeName) = some "source.a" := by
    decide +kernel
  have hfull : ((ofSource grouped).supply "source.a").map (fun root =>
      (Ruleset.ofDefinition ⟨grouped.grammars, []⟩ root).map (·.table.size)) = some (.ok 6) := by
    decide +kernel
  obtain ⟨hsize, hrequested, hmissing, hinjections, hlarge⟩ := hload
  generalize (ofSource grouped).load "source.a" 1 none = x at *
  obtain ⟨made, r', requested⟩ := x
  obtain rfl : requested = ["source.a"] := hrequested
  cases made with
  | error e => simp [Except.toOption] at hsize
  | ok h =>
  have hsize : h.reader.rules.table.size = 4 := Option.some.inj hsize
  refine ⟨h, r', rfl, by decide +kernel, Option.isNone_iff_eq_none.1 hmissing, hsize,
    hfull, ?_⟩
  rintro ⟨root, rules, d, hroot, rfl, hlooks⟩
  rw [hroot, Option.map_some, Option.some_inj] at hname hfull
  have hcompiled := hlooks.compiled ⟨grouped.grammars, []⟩ (fun _ _ => rfl)
    (by rw [hname]; exact hinjections.symm) hlarge
  rw [hcompiled] at hfull
  have hsix : rules.table.size = 6 := Except.ok.inj hfull
  have hfour : rules.table.size = 4 := hsize
  omega

end Registry

end Highlight
