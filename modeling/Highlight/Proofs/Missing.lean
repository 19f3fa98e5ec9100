import Highlight.Proofs.Capacity
import Highlight.Proofs.Reloading

/-!
# Which loads fail

Much may be missing when a grammar is loaded: grammars that its rules refer to, named rules, and
grammars that are to be injected. All of these are left out. What must be there is the grammar
itself, and it is looked for more than once, as each round looks it up for each need that it
explores.

All these lookups agree. The first round begins by asking the source, and what the catalog has then
decides: a catalog only grows, though not always by the name that was asked for, so from there on
the grammar is missed in no round, nor when the rounds are over.

What is loaded must still be compiled. That fails if a rule that is met has no room for its groups,
and for no other reason.
-/

namespace Highlight

open Grammar

variable {σ : Type}

namespace Fetching

variable {f : Fetching} {source : Option Source} {scope : String}

/-- What the catalog has stays there while others are asked for, whatever their names. -/
theorem isSome_ensured (h : (f.catalog.grammar? scope).isSome) (asked : String) :
    ((f.ensured source asked).catalog.grammar? scope).isSome := by
  unfold ensured
  split
  · exact h
  cases source with
  | none => exact h
  | some source =>
    dsimp only
    cases source.grammar? asked with
    | none => exact h
    | some d =>
      rw [Catalog.grammar?_add]
      split
      · rfl
      · exact h

theorem isSome_fetched (h : (f.catalog.grammar? scope).isSome) (queue : List Need) :
    ((f.fetched source queue).catalog.grammar? scope).isSome := by
  induction queue generalizing f with
  | nil => exact h
  | cons n queue ih => exact ih (isSome_ensured h n.scope)

/-- **Asking in vain**: a grammar is missing after it was asked for if the catalog lacks it and the
source has none, or one of another name. -/
theorem grammar?_ensured_eq_none_iff :
    (f.ensured source scope).catalog.grammar? scope = none ↔
      f.catalog.grammar? scope = none ∧
        ∀ s ∈ source, ∀ d, s.grammar? scope = some d → d.scopeName ≠ scope := by
  unfold ensured
  split
  · next hknown =>
    have hne : f.catalog.grammar? scope ≠ none := Option.isSome_iff_ne_none.1 hknown
    exact ⟨fun h => absurd h hne, fun h => absurd h.1 hne⟩
  next hknown =>
  have hnone : f.catalog.grammar? scope = none := Option.not_isSome_iff_eq_none.1 hknown
  cases source with
  | none => simp [hnone]
  | some source =>
    dsimp only
    cases hd : source.grammar? scope with
    | none => simp [hnone, hd]
    | some d =>
      rw [Catalog.grammar?_add]
      simp [hnone, hd, eq_comm]

end Fetching

/-- **Rounds do not miss what the catalog has**, nor lose it. -/
theorem Fetch.rounds_known {source : Option Source} {limit : Nat} {d : Dependencies}
    {f : Fetching} (h : (f.catalog.grammar? d.root).isSome) :
    (∀ f', (rounds source limit d).run f = .ok () f' → (f'.catalog.grammar? d.root).isSome) ∧
      ∀ e f', (rounds source limit d).run f = .error e f' → e = .rounds := by
  induction limit generalizing d f with
  | zero => exact ⟨fun f' hrun => by simp [rounds] at hrun, fun e f' hrun => by simp_all [rounds]⟩
  | succ limit ih =>
    rw [run_rounds_succ]
    split
    · refine ⟨fun f' hrun => ?_, fun e f' hrun => by cases hrun⟩
      obtain ⟨-, rfl⟩ := EStateM.Result.ok.inj hrun
      exact h
    have hfetched : ((f.fetched source d.queue).catalog.grammar? d.root).isSome :=
      Fetching.isSome_fetched h d.queue
    cases hnext : d.next (f.fetched source d.queue).catalog with
    | ok d' =>
      rw [← Dependencies.root_of_next hnext] at hfetched ⊢
      exact ih hfetched
    | error e => simp [(Dependencies.missing_of_next hnext).1] at hfetched

namespace Registry

/-- **What is fetched first**: the source is asked for the grammar itself, unless it is known. -/
def asked (r : Registry σ) (scope : String) : Fetching :=
  Fetching.ensured ⟨r.catalog, []⟩ r.source scope

variable {r : Registry σ} {scope : String}

/-- The first round asks for the grammar itself. -/
theorem run_rounds (r : Registry σ) (scope : String) :
    ∃ limit, (Fetch.rounds r.source r.roundLimit (.ofRoot scope)).run ⟨r.catalog, []⟩ =
      match (Dependencies.ofRoot scope).next (r.asked scope).catalog with
      | .ok d => (Fetch.rounds r.source limit d).run (r.asked scope)
      | .error e => .error (.missing e) (r.asked scope) := by
  obtain ⟨limit, hlimit⟩ : ∃ limit, r.roundLimit = limit + 1 := ⟨_, rfl⟩
  exact ⟨limit, by rw [hlimit, Fetch.run_rounds_succ]; rfl⟩

/-- The rounds fail if the grammar is missing after it was asked for. -/
theorem rounds_of_grammar?_eq_none (h : (r.asked scope).catalog.grammar? scope = none) :
    (Fetch.rounds r.source r.roundLimit (.ofRoot scope)).run ⟨r.catalog, []⟩ =
      .error (.missing ⟨scope⟩) (r.asked scope) := by
  obtain ⟨limit, hrun⟩ := r.run_rounds scope
  rw [hrun]
  cases hnext : (Dependencies.ofRoot scope).next (r.asked scope).catalog with
  | ok d => exact absurd h (Option.isSome_iff_ne_none.1 (Dependencies.isSome_of_next_ofRoot hnext))
  | error e =>
    obtain ⟨-, rfl⟩ := Dependencies.missing_of_next hnext
    rfl

/-- The rounds end, and the catalog has the grammar, if it is there after it was asked for. -/
theorem rounds_of_isSome (h : ((r.asked scope).catalog.grammar? scope).isSome) :
    ∃ f', (Fetch.rounds r.source r.roundLimit (.ofRoot scope)).run ⟨r.catalog, []⟩ = .ok () f' ∧
      (f'.catalog.grammar? scope).isSome := by
  obtain ⟨limit, hrun⟩ := r.run_rounds scope
  have hends := r.rounds_ends scope
  rw [hrun] at hends ⊢
  cases hnext : (Dependencies.ofRoot scope).next (r.asked scope).catalog with
  | error e =>
    exact absurd (Dependencies.missing_of_next hnext).1 (Option.isSome_iff_ne_none.1 h)
  | ok d =>
    have hroot : d.root = scope := Dependencies.root_of_next hnext
    rw [hnext] at hends
    have hstays : ((r.asked scope).catalog.grammar? d.root).isSome := hroot.symm ▸ h
    obtain ⟨f', hok⟩ | ⟨f', herror⟩ := hends
    · exact ⟨f', hok, hroot ▸ (Fetch.rounds_known hstays).1 f' hok⟩
    · cases (Fetch.rounds_known hstays).2 _ f' herror

/-- What is loaded is made of the rules that compiling yields. -/
theorem load_of_rounds {f' : Fetching} {root : Definition}
    (hrun : (Fetch.rounds r.source r.roundLimit (.ofRoot scope)).run ⟨r.catalog, []⟩ = .ok () f')
    (hroot : f'.catalog.grammar? scope = some root) (language : Nat)
    (configuration : Option Configuration) :
    r.load scope language configuration =
      (match Ruleset.ofDefinition f'.catalog root with
        | .ok rules => .ok (.make rules r.theme r.engine language configuration)
        | .error e => .error (.compile e),
        { r with catalog := f'.catalog }, f'.requested.reverse) := by
  rw [load, hrun]
  dsimp only
  generalize f'.catalog.grammar? scope = found at hroot ⊢
  subst hroot
  rfl

/-- **Why a load fails.** The error that the grammar is missing is told from what the catalog has
once the grammar was asked for, and no other grammar or rule need be there. If the catalog has it,
a highlighter is made just if all rules that compiling meets have room for their groups. -/
theorem load_missing_iff (r : Registry σ) (scope : String) (language : Nat)
    (configuration : Option Configuration) :
    ((r.load scope language configuration).1 = .error (.missing ⟨scope⟩) ↔
        (r.asked scope).catalog.grammar? scope = none) ∧
      ((r.asked scope).catalog.grammar? scope ≠ none →
        ∃ (root : Definition) (met : List Located) (st : Compilation),
          let catalog := (r.load scope language configuration).2.1.catalog
          catalog.grammar? scope = some root ∧ met ⊆ root.all ++ catalog.all ∧
            Compile.Leaves catalog root st ∧ met.map (·.site) = st.numbers.map (·.1) ∧
            (met.map (·.site)).Nodup ∧
            ((∃ made, (r.load scope language configuration).1 = .ok made) ↔
              ∀ l ∈ met, l.HasRoom)) := by
  cases hknown : (r.asked scope).catalog.grammar? scope with
  | none =>
    refine ⟨iff_of_true ?_ rfl, fun h => absurd rfl h⟩
    rw [load, rounds_of_grammar?_eq_none hknown]
  | some base =>
    obtain ⟨f', hrun, hsome⟩ := rounds_of_isSome (Option.isSome_iff_exists.2 ⟨base, hknown⟩)
    obtain ⟨root, hroot⟩ := Option.isSome_iff_exists.1 hsome
    rw [load_of_rounds hrun hroot]
    obtain ⟨met, st, hmet, hcompiled⟩ := Definition.exists_met f'.catalog root
    refine ⟨iff_of_false ?_ (Option.some_ne_none base),
      fun _ => ⟨root, met, st, hroot, hmet.within, ?_, hmet.sites.symm, hmet.nodup, ?_⟩⟩
    · cases Ruleset.ofDefinition f'.catalog root <;> simp
    · obtain ⟨p, hp, -⟩ | ⟨e, he, -⟩ := hcompiled
      · exact .inl ⟨p, hp⟩
      · exact .inr ⟨e, he⟩
    · obtain ⟨p, hp, hroom, -⟩ | ⟨e, he, l, hl, hroom⟩ := hcompiled
      · refine iff_of_true ?_ hroom
        rw [Ruleset.ofDefinition_eq, hp]
        exact ⟨_, rfl⟩
      · refine iff_of_false ?_ (fun h => hroom (h l hl))
        rw [Ruleset.ofDefinition_eq, he]
        rintro ⟨made, hmade⟩
        cases hmade

/-- A source of a grammar that refers to another, and of that other, which has a rule for a group
that no list has a place for. -/
def crowded : Source where
  grammars := [
    ("text", { scopeName := "text", patterns := [{ reference := some "letters" }] }),
    ("letters", {
      scopeName := "letters"
      patterns := [{
        pattern := some "a"
        captures := some [(18446744073709551615, { name := some "x" })] }] })]

/-- **A grammar that is not missing may still fail to load**: here a group number of a grammar that
it refers to is too great. -/
theorem not_load_ok_crowded :
    ¬ ∀ (r : Registry Unit) (scope : String) (language : Nat)
        (configuration : Option Configuration),
      ((r.load scope language configuration).1 = .error (.missing ⟨scope⟩) ↔
          (r.asked scope).catalog.grammar? scope = none) ∧
        ((r.asked scope).catalog.grammar? scope ≠ none →
          ∃ made, (r.load scope language configuration).1 = .ok made) := by
  intro h
  have hknown : ((ofSource crowded).asked "text").catalog.grammar? "text" ≠ none := by
    decide +kernel
  have hfails : ((ofSource crowded).load "text" 1 none).1.toOption.isSome = false := by
    decide +kernel
  obtain ⟨made, hmade⟩ := (h (ofSource crowded) "text" 1 none).2 hknown
  rw [hmade] at hfails
  cases hfails

end Registry

end Highlight
