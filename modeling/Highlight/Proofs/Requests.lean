import Highlight.Proofs.Missing

/-!
# What the source is asked for

While a grammar is loaded, the source is asked for all that is needed and not known. Nothing is
needed twice, and one expects that no scope is asked for twice either.

But it is scopes that the source is asked for, and a grammar may be needed in more than one way: for
one or another of its named rules, and then as a whole. What is remembered of the answers are the
grammars that were got. So a grammar that the source has is asked for by the first need of it alone,
whatever else is needed of it. One that the source does not have, or has by another name, is asked
for in vain, and then by each further need as well, as long as no grammar of that name is got by
chance.

The **log** of a load is all that is needed in it, first to last. What the source is asked for is
told from it, and that makes the condition exact.
-/

namespace Highlight

open Grammar

variable {σ : Type}

/-! ## The log -/

namespace Grammar.AsksOnce

theorem left {log log' : List Need} (h : AsksOnce (log ++ log')) : AsksOnce log :=
  ⟨h.once.of_append_left, (List.pairwise_append.1 h.settled).1⟩

/-- Where more than one thing of a grammar is asked for, the earlier ones are named rules, and each
is another. -/
theorem entry_of_mem {log earlier : List Need} {n m : Need} (h : AsksOnce log)
    (hlog : earlier ++ [n] <+: log) (hm : m ∈ earlier) (hscope : m.scope = n.scope) :
    n ≠ m ∧ ∃ name, m = .entry n.scope name := by
  obtain ⟨later, rfl⟩ := hlog
  obtain ⟨honce, hsettled⟩ := h.left
  refine ⟨fun heq => ?_, ?_⟩
  · exact List.disjoint_of_nodup_append honce hm (heq ▸ List.mem_singleton_self n)
  · cases m with
    | whole scope =>
      have hother := (List.pairwise_append.1 hsettled).2.2 _ hm n (List.mem_singleton_self n)
      exact absurd hscope.symm (hother rfl)
    | entry scope name => exact ⟨name, hscope ▸ rfl⟩

end Grammar.AsksOnce

namespace Fetch

/-- **The log of some rounds**: all that is asked for in them, first to last. -/
def log (source : Option Source) : (limit : Nat) → Dependencies → Fetching → List Need
  | 0, _, _ => []
  | limit + 1, d, f =>
    if d.queue.isEmpty then []
    else
      let f' := f.fetched source d.queue
      d.queue ++ match d.next f'.catalog with
        | .ok d' => log source limit d' f'
        | .error _ => []

/-- However the rounds end, they have fetched what their log asks for. -/
theorem eq_fetched_log {source : Option Source} {limit : Nat} {d : Dependencies} {f f' : Fetching}
    (h : (rounds source limit d).run f = .ok () f' ∨
      ∃ e, (rounds source limit d).run f = .error e f') :
    f' = f.fetched source (log source limit d f) := by
  induction limit generalizing d f with
  | zero =>
    obtain h | ⟨e, h⟩ := h
    · simp [rounds] at h
    · exact (EStateM.Result.error.inj h).2.symm
  | succ limit ih =>
    simp only [run_rounds_succ] at h
    unfold log
    split at h
    · next hempty =>
      rw [if_pos hempty]
      obtain h | ⟨e, h⟩ := h
      · exact (EStateM.Result.ok.inj h).2.symm
      · cases h
    next hempty =>
    rw [if_neg hempty, Fetching.fetched, List.foldl_append]
    cases hnext : d.next (f.fetched source d.queue).catalog with
    | ok d' =>
      rw [hnext] at h
      exact ih h
    | error e =>
      rw [hnext] at h
      obtain h | ⟨e', h⟩ := h
      · cases h
      · exact (EStateM.Result.error.inj h).2.symm

/-- **Nothing is logged again**, though the catalog changes from round to round. -/
theorem asksOnce_log {source : Option Source} {limit : Nat} {d : Dependencies} {past : List Need}
    (hlog : d.Logs past) (f : Fetching) : AsksOnce (past ++ log source limit d f) := by
  induction limit generalizing d past f with
  | zero => exact (List.append_nil past).symm ▸ hlog.once.left
  | succ limit ih =>
    unfold log
    split
    · exact (List.append_nil past).symm ▸ hlog.once.left
    dsimp only
    rw [← List.append_assoc]
    cases hnext : d.next (f.fetched source d.queue).catalog with
    | ok d' => exact ih (hlog.next hnext) _
    | error e => exact (List.append_nil (past ++ d.queue)).symm ▸ hlog.once

end Fetch

/-! ## Asking the source -/

namespace Fetching

variable {f : Fetching} {source : Source} {scope : String} {queue : List Need}

/-- The source is asked for a scope that is not known. -/
theorem requested_ensured (f : Fetching) (source : Source) (scope : String) :
    (f.ensured (some source) scope).requested =
      if (f.catalog.grammar? scope).isSome then f.requested else scope :: f.requested := by
  unfold ensured
  split
  · rfl
  · dsimp only
    cases source.grammar? scope <;> rfl

theorem fetched_concat (f : Fetching) (source : Option Source) (queue : List Need) (n : Need) :
    f.fetched source (queue ++ [n]) = (f.fetched source queue).ensured source n.scope :=
  List.foldl_concat _ _ _ _

/-- Without a source nothing is fetched. -/
theorem fetched_none (f : Fetching) (queue : List Need) : f.fetched none queue = f := by
  induction queue with
  | nil => rfl
  | cons n queue ih =>
    have hensured : f.ensured none n.scope = f := by
      unfold ensured
      split <;> rfl
    exact (congrArg (Fetching.fetched · none queue) hensured).trans ih

/-- **Asking in vain**: a scope that is still not known has been asked for by every need of it. -/
theorem count_requested_of_grammar?_eq_none
    (h : (f.fetched (some source) queue).catalog.grammar? scope = none) :
    (f.fetched (some source) queue).requested.count scope =
      f.requested.count scope + (queue.map (·.scope)).count scope := by
  induction queue generalizing f with
  | nil => rfl
  | cons n queue ih =>
    have hunknown : f.catalog.grammar? scope = none := by
      refine Option.not_isSome_iff_eq_none.1 (fun hknown => ?_)
      exact Option.isSome_iff_ne_none.1 (isSome_fetched hknown (n :: queue)) h
    refine (ih h).trans ?_
    rw [requested_ensured, List.map_cons, List.count_cons]
    by_cases hn : n.scope = scope
    · simp [hn, hunknown, Nat.add_comm, Nat.add_left_comm]
    · split <;> simp [hn]

/-- What the source has by the name that it is asked for by is known once it was needed. -/
theorem isSome_fetched_of_mem {n : Need} (hn : n ∈ queue) {d : Definition}
    (hd : source.grammar? n.scope = some d) (hname : d.scopeName = n.scope) :
    ((f.fetched (some source) queue).catalog.grammar? n.scope).isSome := by
  obtain ⟨earlier, later, rfl⟩ := List.append_of_mem hn
  rw [fetched, List.foldl_append, List.foldl_cons]
  refine isSome_fetched (Option.isSome_iff_ne_none.2 (fun hnone => ?_)) later
  exact (grammar?_ensured_eq_none_iff.1 hnone).2 source rfl d hd hname

/-- **A scope is known when it is needed again**: before each need of it but the first. -/
def KnownAgain (f : Fetching) (source : Source) (queue : List Need) (scope : String) : Prop :=
  ∀ earlier n, earlier ++ [n] <+: queue → n.scope = scope → (∃ m ∈ earlier, m.scope = scope) →
    ((f.fetched (some source) earlier).catalog.grammar? scope).isSome

theorem knownAgain_concat {n : Need} :
    f.KnownAgain source (queue ++ [n]) scope ↔
      f.KnownAgain source queue scope ∧ (n.scope = scope → (∃ m ∈ queue, m.scope = scope) →
        ((f.fetched (some source) queue).catalog.grammar? scope).isSome) := by
  refine ⟨fun h => ⟨fun earlier n' hqueue => ?_, h queue n (List.prefix_refl _)⟩, ?_⟩
  · exact h earlier n' (hqueue.trans (List.prefix_append queue [n]))
  · rintro ⟨hqueue, hlast⟩ earlier n' hprefix
    obtain heq | hprefix := List.prefix_concat_iff.1 hprefix
    · obtain ⟨rfl, hn⟩ := List.append_inj' heq rfl
      obtain rfl := List.singleton_inj.1 hn
      exact hlast
    · exact hqueue earlier n' hprefix

/-- **A scope is asked for at most once** if and only if it is known when it is needed again. The
induction adds needs at the end, since what was fetched before a need decides what it asks for. -/
theorem count_requested_le_one_iff (hscope : scope ∉ f.requested) :
    (f.fetched (some source) queue).requested.count scope ≤ 1 ↔
      f.KnownAgain source queue scope := by
  induction queue using List.reverseRecOn with
  | nil =>
    refine iff_of_true ?_ (fun earlier n h => by simp at h)
    exact (List.count_eq_zero_of_not_mem hscope).trans_le (Nat.zero_le 1)
  | append_singleton queue n ih =>
    rw [knownAgain_concat, ← ih, fetched_concat, requested_ensured]
    by_cases hn : n.scope = scope
    · subst hn
      cases hknown : (f.fetched (some source) queue).catalog.grammar? n.scope with
      | some d => simp
      | none =>
        have hcount := count_requested_of_grammar?_eq_none hknown
        rw [List.count_eq_zero_of_not_mem hscope, Nat.zero_add] at hcount
        have hneeded : 0 < (queue.map (·.scope)).count n.scope ↔
            ∃ m ∈ queue, m.scope = n.scope := by
          rw [List.count_pos_iff, List.mem_map]
        simp only [Option.isSome_none, Bool.false_eq_true, if_false, List.count_cons_self, hcount,
          true_imp_iff, ← hneeded, imp_false]
        omega
    · rw [and_iff_left (fun h => absurd h hn)]
      split
      · rfl
      · rw [List.count_cons_of_ne hn]

end Fetching

namespace Registry

/-- **The log of a load**: all that is needed in it, first to last. -/
def log (r : Registry σ) (scope : String) : List Need :=
  Fetch.log r.source r.roundLimit (.ofRoot scope) ⟨r.catalog, []⟩

/-- Nothing is needed twice in a load. -/
theorem asksOnce_log (r : Registry σ) (scope : String) : AsksOnce (r.log scope) :=
  List.nil_append (r.log scope) ▸
    Fetch.asksOnce_log (Dependencies.logs_ofRoot scope) ⟨r.catalog, []⟩

/-- A load asks the source for what fetching the log asks for, whether it succeeds or not. -/
theorem requested_load (r : Registry σ) (scope : String) (language : Nat)
    (configuration : Option Configuration) :
    (r.load scope language configuration).2.2 =
      (Fetching.fetched ⟨r.catalog, []⟩ r.source (r.log scope)).requested.reverse := by
  rw [load, log]
  cases hrun : (Fetch.rounds r.source r.roundLimit (.ofRoot scope)).run ⟨r.catalog, []⟩ with
  | ok _ f => rw [← Fetch.eq_fetched_log (.inl hrun)]
  | error e f => rw [← Fetch.eq_fetched_log (.inr ⟨e, hrun⟩)]

/-- **When a load asks the source for a scope at most once**: if after a named rule of a grammar
something else of it is needed, the grammar is known by then. -/
theorem count_load_le_one_iff (r : Registry σ) (scope asked : String) (language : Nat)
    (configuration : Option Configuration) :
    (r.load scope language configuration).2.2.count asked ≤ 1 ↔
      ∀ source ∈ r.source, ∀ earlier n name, earlier ++ [n] <+: r.log scope → n.scope = asked →
        n ≠ .entry asked name → .entry asked name ∈ earlier →
          ((Fetching.fetched ⟨r.catalog, []⟩ source earlier).catalog.grammar? asked).isSome := by
  rw [requested_load, List.count_reverse]
  cases r.source with
  | none =>
    rw [Fetching.fetched_none]
    exact iff_of_true (Nat.zero_le 1) (fun source hsource => absurd hsource (Option.not_mem_none _))
  | some source =>
    rw [Fetching.count_requested_le_one_iff List.not_mem_nil]
    constructor
    · intro h source' hsource earlier n name hlog hn _ hmem
      obtain rfl := Option.some.inj hsource
      exact h earlier n hlog hn ⟨_, hmem, rfl⟩
    · rintro h earlier n hlog rfl ⟨m, hm, hscope⟩
      obtain ⟨hne, name, rfl⟩ := (r.asksOnce_log scope).entry_of_mem hlog hm hscope
      exact h source rfl earlier n name hlog rfl hne hm

/-- What the source has by the name that it is asked for by is asked for once at most, in however
many ways it is needed. -/
theorem count_load_le_one_of_supplied {r : Registry σ} {source : Source} {asked : String}
    {d : Definition} (hsource : r.source = some source) (hd : source.grammar? asked = some d)
    (hname : d.scopeName = asked) (scope : String) (language : Nat)
    (configuration : Option Configuration) :
    (r.load scope language configuration).2.2.count asked ≤ 1 := by
  rw [requested_load, List.count_reverse, hsource,
    Fetching.count_requested_le_one_iff List.not_mem_nil]
  rintro earlier n _ _ ⟨m, hm, rfl⟩
  exact Fetching.isSome_fetched_of_mem hm hd hname

/-- A source of one grammar, which refers to two named rules of another. -/
def wordless : Source where
  grammars := [
    ("text", {
      scopeName := "text"
      patterns := [{ reference := some "words#noun" }, { reference := some "words#verb" }] })]

/-- **A grammar that the source lacks is asked for by each of the rules that are needed of it.** -/
theorem not_count_load_le_one_wordless :
    ((ofSource wordless).load "text" 0 none).2.2 = ["text", "words", "words"] ∧
      ¬ ∀ asked, ((ofSource wordless).load "text" 0 none).2.2.count asked ≤ 1 := by
  have hrequested : ((ofSource wordless).load "text" 0 none).2.2 = ["text", "words", "words"] := by
    decide +kernel
  refine ⟨hrequested, fun h => ?_⟩
  have htwice := h "words"
  rw [hrequested] at htwice
  exact absurd htwice (by decide)

end Registry

end Highlight
