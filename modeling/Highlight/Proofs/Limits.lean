import Highlight.Proofs.Asking
import Highlight.Proofs.Fetching

/-!
# Fetching is never cut short

Before a grammar is compiled, what it depends on is fetched in rounds, of which there may be no more
than the registry allows. The catalog grows between two rounds, and each grammar that is added may
need others and may ask to be injected into others, so what bounds the rounds is not the catalog
they begin with. It is what the catalog and the source have together: whatever a catalog may need
that was fetched in some of the rounds is among what these two may need from the outset. All that
is asked for lies there, and is asked for once, so the registry allows for enough rounds.

Hence fetching ends in one of two ways. Either the rounds have settled what is asked for, or the
grammar that all began with is to be had nowhere.
-/

namespace Highlight

open Grammar

variable {σ : Type}

/-! ## What may be needed of a catalog and a source -/

namespace Grammar.Catalog

variable {c : Catalog} {d : Definition} {injected : List String}

theorem mem_all_of_add {l : Located} (h : l ∈ (c.add d injected).all) : l ∈ c.all ∨ l ∈ d.all := by
  obtain ⟨p, hp, hl⟩ := List.mem_flatMap.1 h
  rw [grammars_add] at hp
  obtain rfl | hp := Keyed.eq_or_mem_of_mem_put hp
  · exact .inr hl
  · exact .inl (List.mem_flatMap.2 ⟨p, hp, hl⟩)

/-- What is to be injected into a grammar after another is added was so before, is given with that
other one, or is that other one. -/
theorem mem_injectionsInto_of_add {target i : String}
    (h : i ∈ (c.add d injected).injectionsInto target) :
    i ∈ c.injectionsInto target ∨ i ∈ injected ∨ target ∈ d.injectTo ∧ i = d.scopeName := by
  obtain h | ⟨t, ht, rfl, rfl⟩ :=
    mem_injectionsInto_foldl_inject (f := fun t => t) (g := fun _ => d.scopeName) h
  · obtain h | ⟨j, hj, -, rfl⟩ :=
      mem_injectionsInto_foldl_inject (f := fun _ => d.scopeName) (g := fun j => j) h
    · exact .inl h
    · exact .inr (.inl hj)
  · exact .inr (.inr ⟨ht, rfl⟩)

/-- What may be needed after a grammar is added. -/
theorem mayNeed_of_add {n : Need} (h : (c.add d injected).MayNeed n) :
    c.MayNeed n ∨ n ∈ needsOf d.all ∨ (∃ i ∈ injected, n = .whole i) ∨
      ∃ t ∈ d.injectTo, n = .whole d.scopeName := by
  obtain h | ⟨scope, i, hi, rfl⟩ := h
  · obtain ⟨l, hl, hn⟩ := List.mem_filterMap.1 h
    obtain hl | hl := mem_all_of_add hl
    · exact .inl (.inl (List.mem_filterMap.2 ⟨l, hl, hn⟩))
    · exact .inr (.inl (List.mem_filterMap.2 ⟨l, hl, hn⟩))
  · obtain hi | hi | ⟨ht, rfl⟩ := mem_injectionsInto_of_add hi
    · exact .inl (.inr ⟨scope, i, hi, rfl⟩)
    · exact .inr (.inr (.inl ⟨i, hi, rfl⟩))
    · exact .inr (.inr (.inr ⟨scope, ht, rfl⟩))

theorem length_needs_le (c : Catalog) :
    c.needs.length ≤ c.size + Keyed.total List.length c.injections := by
  have hrules := List.length_filterMap_le Located.need? c.all
  have hinjections : (c.injections.flatMap (fun p => p.2.map Need.whole)).length =
      Keyed.total List.length c.injections :=
    Keyed.length_flatMap_values (f := fun is : List String => is.map Need.whole)
      (fun _ => List.length_map _) c.injections
  rw [c.length_all] at hrules
  rw [needs, List.length_append, hinjections]
  exact Nat.add_le_add_right hrules _

end Grammar.Catalog

namespace Source

/-- The inventory of all grammars of a source. -/
def all (s : Source) : List Located := s.grammars.flatMap (·.2.all)

/-- **What the grammars of a source may need** once they are added to a catalog: what their rules
need, the grammars to be injected into them, and themselves where they ask to be injected. -/
def needs (s : Source) : List Need :=
  needsOf s.all ++ s.injections.flatMap (fun p => p.2.map .whole) ++
    s.grammars.flatMap (fun p => p.2.injectTo.map (fun _ => .whole p.2.scopeName))

variable {s : Source} {scope : String} {d : Definition}

/-- What may be needed after a grammar of a source is added may be needed of the source, or was so
before. -/
theorem mem_needs_of_add (hd : s.grammar? scope = some d) {c : Catalog} {n : Need}
    (h : (c.add d (s.injectionsInto scope)).MayNeed n) : c.MayNeed n ∨ n ∈ s.needs := by
  have hmem := Keyed.mem_of_get? hd
  obtain h | h | ⟨i, hi, rfl⟩ | ⟨t, ht, rfl⟩ := Catalog.mayNeed_of_add h
  · exact .inl h
  · obtain ⟨l, hl, hn⟩ := List.mem_filterMap.1 h
    exact .inr (List.mem_append_left _ (List.mem_append_left _
      (List.mem_filterMap.2 ⟨l, List.mem_flatMap.2 ⟨_, hmem, hl⟩, hn⟩)))
  · unfold injectionsInto at hi
    cases hget : Keyed.get? scope s.injections with
    | none => simp [hget] at hi
    | some is =>
      rw [hget] at hi
      exact .inr (List.mem_append_left _ (List.mem_append_right _ (List.mem_flatMap.2
        ⟨(scope, is), Keyed.mem_of_get? hget, List.mem_map_of_mem hi⟩)))
  · exact .inr (List.mem_append_right _ (List.mem_flatMap.2
      ⟨_, hmem, List.mem_map.2 ⟨t, ht, rfl⟩⟩))

theorem length_needs_le (s : Source) :
    s.needs.length ≤ s.size + Keyed.total List.length s.injections +
      Keyed.total (fun (d : Definition) => d.injectTo.length) s.grammars := by
  have hrules := List.length_filterMap_le Located.need? s.all
  have hall : s.all.length = s.size := Keyed.length_flatMap_values Definition.length_all s.grammars
  have hinjections : (s.injections.flatMap (fun p => p.2.map Need.whole)).length =
      Keyed.total List.length s.injections :=
    Keyed.length_flatMap_values (f := fun is : List String => is.map Need.whole)
      (fun _ => List.length_map _) s.injections
  have hasked : (s.grammars.flatMap (fun p =>
      p.2.injectTo.map (fun _ => Need.whole p.2.scopeName))).length =
      Keyed.total (fun (d : Definition) => d.injectTo.length) s.grammars :=
    Keyed.length_flatMap_values (f := fun d : Definition =>
      d.injectTo.map (fun _ => Need.whole d.scopeName)) (fun _ => List.length_map _) s.grammars
  rw [hall] at hrules
  rw [needs, List.length_append, List.length_append, hinjections, hasked]
  exact Nat.add_le_add_right (Nat.add_le_add_right hrules _) _

end Source

namespace Fetching

variable {f : Fetching} {source : Option Source} {needs : List Need}

/-- What may be needed stays within what the source may need. -/
theorem mem_of_mayNeed_ensured (hsource : ∀ s ∈ source, s.needs ⊆ needs)
    (hf : ∀ n, f.catalog.MayNeed n → n ∈ needs) (scope : String) :
    ∀ n, (f.ensured source scope).catalog.MayNeed n → n ∈ needs := by
  unfold ensured
  split
  · exact hf
  cases source with
  | none => exact hf
  | some source =>
    dsimp only
    cases hd : source.grammar? scope with
    | none => exact hf
    | some d =>
      intro n hn
      obtain hn | hn := Source.mem_needs_of_add hd hn
      · exact hf n hn
      · exact hsource source rfl hn

theorem mem_of_mayNeed_fetched (hsource : ∀ s ∈ source, s.needs ⊆ needs)
    (hf : ∀ n, f.catalog.MayNeed n → n ∈ needs) (queue : List Need) :
    ∀ n, (f.fetched source queue).catalog.MayNeed n → n ∈ needs := by
  induction queue generalizing f with
  | nil => exact hf
  | cons n queue ih => exact ih (mem_of_mayNeed_ensured hsource hf n.scope)

end Fetching

/-! ## The rounds -/

/-- **Rounds end by themselves** within a limit that leaves room for all that may be needed. The
induction is on the limit; what is logged has no repetitions, and grows with each round. -/
theorem Fetch.rounds_ends {source : Option Source} {needs past : List Need} {limit : Nat}
    {d : Dependencies} {f : Fetching} (hsource : ∀ s ∈ source, s.needs ⊆ needs)
    (hf : ∀ n, f.catalog.MayNeed n → n ∈ needs) (hlog : d.Logs past)
    (hneeds : past ++ d.queue ⊆ .whole d.root :: needs)
    (hlimit : needs.length + 2 ≤ limit + past.length) :
    (∃ f', (rounds source limit d).run f = .ok () f') ∨
      ∃ f', (rounds source limit d).run f = .error (.missing ⟨d.root⟩) f' := by
  induction limit generalizing past d f with
  | zero =>
    have hlength := (List.subperm_of_subset hlog.once.once hneeds).length_le
    rw [List.length_append, List.length_cons] at hlength
    omega
  | succ limit ih =>
    rw [run_rounds_succ]
    split
    · exact .inl ⟨f, rfl⟩
    next hqueue =>
    have hf' := Fetching.mem_of_mayNeed_fetched hsource hf d.queue
    split
    · next d' hnext =>
      have hroot : d'.root = d.root := Dependencies.root_of_next hnext
      have hqueued : 0 < d.queue.length :=
        List.length_pos_iff.2 (fun h => hqueue (List.isEmpty_iff.2 h))
      refine hroot ▸ ih hf' (hlog.next hnext) (List.append_subset.2 ⟨hroot ▸ hneeds, ?_⟩) ?_
      · exact fun n hn => List.mem_cons_of_mem _ (hf' n (Dependencies.mayNeed_of_next hnext n hn))
      · rw [List.length_append]
        omega
    · next e hnext =>
      obtain ⟨-, rfl⟩ := Dependencies.missing_of_next hnext
      exact .inr ⟨_, rfl⟩

namespace Registry

/-- **What may be needed** where the grammars of a registry and its source are explored. -/
def needs (r : Registry σ) : List Need := r.catalog.needs ++ (r.source.getD {}).needs

theorem length_needs_add_two_le (r : Registry σ) : r.needs.length + 2 ≤ r.roundLimit := by
  have := r.catalog.length_needs_le
  have := (r.source.getD {}).length_needs_le
  simp only [needs, roundLimit, List.length_append]
  omega

/-- **Fetching ends**: what is asked for is settled, or the grammar is to be had nowhere. -/
theorem rounds_ends (r : Registry σ) (scope : String) :
    (∃ f', (Fetch.rounds r.source r.roundLimit (.ofRoot scope)).run ⟨r.catalog, []⟩ = .ok () f') ∨
      ∃ f', (Fetch.rounds r.source r.roundLimit (.ofRoot scope)).run ⟨r.catalog, []⟩ =
        .error (.missing ⟨scope⟩) f' := by
  have hsource : ∀ s ∈ r.source, s.needs ⊆ r.needs := by
    intro s hs
    rw [needs, Option.mem_def.1 hs]
    exact List.subset_append_right _ _
  refine Fetch.rounds_ends hsource (fun n hn => List.mem_append_left _ hn.mem_needs)
    (Dependencies.logs_ofRoot scope) (fun n hn => ?_) ?_
  · exact List.mem_singleton.1 hn ▸ List.mem_cons_self
  · exact r.length_needs_add_two_le

/-- **The limit of rounds is never met**, whatever the registry and the source have. -/
theorem load_ne_rounds (r : Registry σ) (scope : String) (language : Nat)
    (configuration : Option Configuration) :
    (r.load scope language configuration).1 ≠ .error .rounds := by
  unfold load
  obtain ⟨f', h⟩ | ⟨f', h⟩ := r.rounds_ends scope
  · rw [h]
    dsimp only
    split
    · simp
    · split <;> simp
  · rw [h]
    simp

end Registry

end Highlight
