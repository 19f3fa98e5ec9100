import Highlight.Proofs.Unbounded

/-!
# The rounds in which dependencies are found

What a grammar depends on is asked for in rounds, and the rounds come to an end by themselves:
after some number of them nothing is asked for any more. The walk of a single round forgets which
rules it has come by when the round is over, so what ends the rounds is only that nothing is asked
for twice. All that is ever asked for is the first grammar, or is needed by a rule of the catalog,
or is to be injected into one of its grammars. There are finitely many of these, and each round
but the last asks for at least one that was not asked for before.

The invariant is about the **log**, all that was asked for so far with the queue at its end. What
is in the log as a whole is noted, and so is the text of each named rule in it. A named rule may
stand in the log before its grammar does, but not after.

All this is so for each step alone, and so it holds whether the catalog changes between two rounds
or not. Only for the number of rounds it has to stay the same.
-/

namespace Highlight.Grammar

/-! ## Asking once -/

/-- **Nothing is asked for again**: in a list of what was asked for, first to last, nothing stands
twice, and nothing of a grammar stands after the grammar as a whole. -/
structure AsksOnce (log : List Need) : Prop where
  /-- Nothing stands twice. -/
  once : log.Nodup
  /-- Nothing of a grammar stands after the grammar as a whole. -/
  settled : log.Pairwise (fun n n' => n = .whole n.scope → n'.scope ≠ n.scope)

namespace AsksOnce

theorem nil : AsksOnce [] := ⟨List.nodup_nil, List.Pairwise.nil⟩

theorem concat {log : List Need} {n : Need} (h : AsksOnce log) (hnew : n ∉ log)
    (hwhole : .whole n.scope ∉ log) : AsksOnce (log ++ [n]) where
  once := by
    refine List.nodup_append.2 ⟨h.once, List.nodup_singleton n, fun m hm m' hm' heq => ?_⟩
    obtain rfl := List.mem_singleton.1 hm'
    exact hnew (heq ▸ hm)
  settled := by
    refine List.pairwise_append.2
      ⟨h.settled, List.pairwise_singleton _ n, fun m hm m' hm' hm_whole hscope => ?_⟩
    obtain rfl := List.mem_singleton.1 hm'
    exact hwhole (hscope ▸ hm_whole ▸ hm)

end AsksOnce

namespace Dependencies

/-- **What was asked for is logged**: what was asked for in the rounds past, and then what is in the
queue, is asked for once, and has been noted. -/
structure Logs (past : List Need) (d : Dependencies) : Prop where
  /-- Nothing is asked for again. -/
  once : AsksOnce (past ++ d.queue)
  /-- Whole grammars are noted. -/
  whole : ∀ scope, .whole scope ∈ past ++ d.queue → scope ∈ d.whole
  /-- The texts of needs of a named rule are noted. -/
  entries : ∀ scope name, .entry scope name ∈ past ++ d.queue →
    (Need.entry scope name).text ∈ d.entries

theorem logs_ofRoot (root : String) : Logs [] (ofRoot root) where
  once := AsksOnce.nil.concat List.not_mem_nil List.not_mem_nil
  whole := fun scope h => by
    obtain rfl := Need.whole.inj (List.mem_singleton.1 h)
    exact List.mem_singleton_self _
  entries := fun scope name h => by simp [ofRoot] at h

namespace Logs

variable {past : List Need} {d : Dependencies}

/-- The queue is taken. -/
theorem take (h : Logs past d) : Logs (past ++ d.queue) { d with queue := [] } := by
  obtain ⟨hlog, hwhole, hentries⟩ := h
  exact ⟨by simpa using hlog, by simpa using hwhole, by simpa using hentries⟩

/-- Asking for a need keeps the log. -/
theorem ask (h : Logs past d) (n : Need) : Logs past (d.ask n) := by
  unfold Dependencies.ask
  split
  · exact h
  next hscope =>
  have hwhole : .whole n.scope ∉ past ++ d.queue := fun hn =>
    hscope (List.contains_iff_mem.2 (h.whole _ hn))
  cases n with
  | whole scope =>
    have hnew : .whole scope ∉ past ++ d.queue := hwhole
    refine ⟨?_, fun s hs => ?_, fun s name hs => ?_⟩
    · simpa using h.once.concat hnew hwhole
    · rw [← List.append_assoc] at hs
      obtain hs | hs := List.mem_append.1 hs
      · exact List.mem_cons_of_mem _ (h.whole s hs)
      · obtain rfl := Need.whole.inj (List.mem_singleton.1 hs)
        exact List.mem_cons_self
    · exact h.entries s name (by simpa using hs)
  | entry scope name =>
    dsimp only
    split
    · exact h
    next htext =>
    have hnew : .entry scope name ∉ past ++ d.queue := fun hn =>
      htext (List.contains_iff_mem.2 (h.entries _ _ hn))
    refine ⟨?_, fun s hs => ?_, fun s name' hs => ?_⟩
    · simpa using h.once.concat hnew hwhole
    · exact h.whole s (by simpa using hs)
    · rw [← List.append_assoc] at hs
      obtain hs | hs := List.mem_append.1 hs
      · exact List.mem_cons_of_mem _ (h.entries s name' hs)
      · obtain ⟨rfl, rfl⟩ := Need.entry.inj (List.mem_singleton.1 hs)
        exact List.mem_cons_self

theorem foldl_ask (h : Logs past d) (needs : List Need) :
    Logs past (needs.foldl Dependencies.ask d) := by
  induction needs generalizing d with
  | nil => exact h
  | cons n needs ih => exact ih (h.ask n)

end Logs

@[simp] theorem root_ask (d : Dependencies) (n : Need) : (d.ask n).root = d.root := by
  unfold ask
  split
  · rfl
  · cases n with
    | whole scope => rfl
    | entry scope name => dsimp only; split <;> rfl

@[simp] theorem root_foldl_ask (needs : List Need) (d : Dependencies) :
    (needs.foldl ask d).root = d.root := by
  induction needs generalizing d with
  | nil => rfl
  | cons n needs ih => rw [List.foldl_cons, ih, root_ask]

/-- What is in the queue after asking for a need was there before, or is that need. -/
theorem mem_queue_ask {d : Dependencies} {n m : Need} (h : m ∈ (d.ask n).queue) :
    m ∈ d.queue ∨ m = n := by
  unfold ask at h
  split at h
  · exact .inl h
  · cases n with
    | whole scope => exact (List.mem_append.1 h).imp_right List.mem_singleton.1
    | entry scope name =>
      dsimp only at h
      split at h
      · exact .inl h
      · exact (List.mem_append.1 h).imp_right List.mem_singleton.1

theorem mem_queue_foldl_ask {needs : List Need} {d : Dependencies} {m : Need}
    (h : m ∈ (needs.foldl ask d).queue) : m ∈ d.queue ∨ m ∈ needs := by
  induction needs generalizing d with
  | nil => exact .inl h
  | cons n needs ih =>
    obtain h | h := ih h
    · obtain h | rfl := mem_queue_ask h
      · exact .inl h
      · exact .inr List.mem_cons_self
    · exact .inr (List.mem_cons_of_mem _ h)

end Dependencies

/-! ## What can be asked for -/

/-- **What can be needed** where the grammars of a catalog are explored: what its rules need, and
the grammars to be injected. -/
def Catalog.MayNeed (c : Catalog) (n : Need) : Prop :=
  n ∈ needsOf c.all ∨ ∃ scope, ∃ i ∈ c.injectionsInto scope, n = .whole i

/-- All that can be needed, in a list. -/
def Catalog.needs (c : Catalog) : List Need :=
  needsOf c.all ++ c.injections.flatMap (fun p => p.2.map .whole)

theorem Catalog.MayNeed.mem_needs {c : Catalog} {n : Need} (h : c.MayNeed n) : n ∈ c.needs := by
  obtain h | ⟨scope, i, hi, rfl⟩ := h
  · exact List.mem_append_left _ h
  · unfold injectionsInto at hi
    cases hget : Keyed.get? scope c.injections with
    | none => simp [hget] at hi
    | some is =>
      rw [hget] at hi
      exact List.mem_append_right _ (List.mem_flatMap.2
        ⟨(scope, is), Keyed.mem_of_get? hget, List.mem_map_of_mem hi⟩)

namespace Dependencies

variable {c : Catalog} {root : String} {f f' : Findings} {d d' : Dependencies}

/-- **What exploring finds** was found before, is found by the walk, or is to be injected. -/
theorem needs_of_explore {P : Need → Prop} {n : Need}
    (hwalks : ∀ base self f₁, c.grammar? root = some base → c.grammar? n.scope = some self →
      Walks (n.target base self) f f₁ → ∀ m ∈ f₁.needs, m ∈ f.needs ∨ P m)
    (hinjected : ∀ self, c.grammar? n.scope = some self →
      ∀ i ∈ c.injectionsInto n.scope, P (.whole i))
    (h : explore c root f n = .ok f') : ∀ m ∈ f'.needs, m ∈ f.needs ∨ P m := by
  cases hself : c.grammar? n.scope with
  | none =>
    simp only [explore, hself] at h
    split at h
    · cases h
    · obtain rfl := Except.ok.inj h
      exact fun m hm => .inl hm
  | some self =>
    cases hbase : c.grammar? root with
    | none => simp [explore, hself, hbase] at h
    | some base =>
      obtain ⟨f₁, hwalk, hexplore⟩ := Catalog.exists_walks hbase hself f
      obtain rfl := Except.ok.inj (hexplore.symm.trans h)
      intro m hm
      obtain hm | ⟨i, hi, rfl⟩ := Findings.mem_needs_noteAll hm
      · exact hwalks base self f₁ hbase hself hwalk m hm
      · exact .inr (hinjected self hself i hi)

/-- What is found from the needs of a queue is found from one of them. -/
theorem needs_of_foldlM_explore {P : Need → Prop} {queue : List Need}
    (hqueue : ∀ n ∈ queue, ∀ f f', explore c root f n = .ok f' →
      ∀ m ∈ f'.needs, m ∈ f.needs ∨ P m)
    (h : queue.foldlM (explore c root) f = .ok f') : ∀ m ∈ f'.needs, m ∈ f.needs ∨ P m := by
  induction queue generalizing f with
  | nil =>
    obtain rfl := Except.ok.inj h
    exact fun m hm => .inl hm
  | cons n queue ih =>
    rw [List.foldlM_cons] at h
    cases hn : explore c root f n with
    | error e =>
      rw [hn] at h
      cases h
    | ok f₁ =>
      rw [hn] at h
      intro m hm
      obtain hm | hm := ih (fun n' hn' => hqueue n' (List.mem_cons_of_mem _ hn')) h m hm
      · exact hqueue n List.mem_cons_self f f₁ hn m hm
      · exact .inr hm

/-- Exploring fails only where the grammar that all began with is not there. -/
theorem missing_of_explore {n : Need} {e : MissingGrammar} (h : explore c root f n = .error e) :
    c.grammar? root = none ∧ e = ⟨root⟩ := by
  unfold explore at h
  split at h
  · next hself =>
    split at h
    · next hscope => exact ⟨hscope ▸ hself, (Except.error.inj h).symm⟩
    · cases h
  · next hbase => exact ⟨hbase, (Except.error.inj h).symm⟩
  · cases h

theorem missing_of_foldlM_explore {queue : List Need} {e : MissingGrammar}
    (h : queue.foldlM (explore c root) f = .error e) : c.grammar? root = none ∧ e = ⟨root⟩ := by
  induction queue generalizing f with
  | nil => cases h
  | cons n queue ih =>
    rw [List.foldlM_cons] at h
    cases hn : explore c root f n with
    | error e' =>
      rw [hn] at h
      obtain rfl := Except.error.inj h
      exact missing_of_explore hn
    | ok f₁ =>
      rw [hn] at h
      exact ih h

/-! ## A round -/

/-- A round explores its queue, and asks for what is found. -/
theorem exists_of_next (h : d.next c = .ok d') :
    ∃ found, d.queue.foldlM (explore c d.root) {} = .ok found ∧
      d' = found.needs.foldl ask { d with queue := [] } := by
  rw [next] at h
  cases hfound : d.queue.foldlM (explore c d.root) {} with
  | error e =>
    rw [hfound] at h
    cases h
  | ok found =>
    rw [hfound] at h
    exact ⟨found, rfl, (Except.ok.inj h).symm⟩

theorem root_of_next (h : d.next c = .ok d') : d'.root = d.root := by
  obtain ⟨found, -, rfl⟩ := exists_of_next h
  exact root_foldl_ask _ _

/-- **A round keeps the log.** -/
theorem Logs.next {past : List Need} (hlog : Logs past d) (h : d.next c = .ok d') :
    Logs (past ++ d.queue) d' := by
  obtain ⟨found, -, rfl⟩ := exists_of_next h
  exact hlog.take.foldl_ask _

/-- A round asks only for what is found from its queue. -/
theorem queue_of_next {P : Need → Prop}
    (hqueue : ∀ n ∈ d.queue, ∀ f f', explore c d.root f n = .ok f' →
      ∀ m ∈ f'.needs, m ∈ f.needs ∨ P m)
    (h : d.next c = .ok d') : ∀ n ∈ d'.queue, P n := by
  obtain ⟨found, hfound, rfl⟩ := exists_of_next h
  intro n hn
  obtain hn | hn := mem_queue_foldl_ask hn
  · exact absurd hn List.not_mem_nil
  · exact (needs_of_foldlM_explore hqueue hfound n hn).resolve_left List.not_mem_nil

/-- A round asks only for what can be needed. -/
theorem mayNeed_of_next (h : d.next c = .ok d') : ∀ n ∈ d'.queue, c.MayNeed n := by
  refine queue_of_next (fun n _ f f' hexplore => ?_) h
  refine needs_of_explore (fun base self f₁ hbase hself hwalks m hm => ?_)
    (fun self _ i hi => .inr ⟨n.scope, i, hi, rfl⟩) hexplore
  exact (hwalks.needs c.closed_all (Catalog.within_target hbase hself) m hm).imp_right .inl

theorem missing_of_next {e : MissingGrammar} (h : d.next c = .error e) :
    c.grammar? d.root = none ∧ e = ⟨d.root⟩ := by
  rw [Dependencies.next] at h
  cases hfound : d.queue.foldlM (explore c d.root) {} with
  | error e' =>
    rw [hfound] at h
    obtain rfl := Except.error.inj h
    exact missing_of_foldlM_explore hfound
  | ok found =>
    rw [hfound] at h
    cases h

/-- Once nothing is asked for, a round changes nothing. -/
theorem next_of_queue_eq_nil (h : d.queue = []) : d.next c = .ok d := by
  obtain ⟨root, whole, entries, queue⟩ := d
  obtain rfl : queue = [] := h
  rfl

/-! ## All rounds -/

/-- The state after some number of rounds. -/
def after (c : Catalog) (root : String) : Nat → Except MissingGrammar Dependencies
  | 0 => .ok (ofRoot root)
  | n + 1 => after c root n >>= next c

/-- **What is asked for in a round.** A round that fails has taken the queue. -/
def queueAt (c : Catalog) (root : String) (n : Nat) : List Need :=
  match after c root n with
  | .ok d => d.queue
  | .error _ => []

/-- **What is asked for in the rounds before one**, first to last. -/
def askedBefore (c : Catalog) (root : String) : Nat → List Need
  | 0 => []
  | n + 1 => askedBefore c root n ++ queueAt c root n

theorem queueAt_of_ok {n : Nat} (h : after c root n = .ok d) : queueAt c root n = d.queue := by
  rw [queueAt, h]

theorem queueAt_of_error {n : Nat} {e : MissingGrammar} (h : after c root n = .error e) :
    queueAt c root n = [] := by
  rw [queueAt, h]

theorem after_succ_of_ok {n : Nat} (h : after c root n = .ok d) :
    after c root (n + 1) = d.next c := by
  rw [after, h]
  rfl

theorem after_succ_of_error {n : Nat} {e : MissingGrammar} (h : after c root n = .error e) :
    after c root (n + 1) = .error e := by
  rw [after, h]
  rfl

/-- The log is kept by all rounds. -/
theorem logs_after {n : Nat} (h : after c root n = .ok d) :
    Logs (askedBefore c root n) d ∧ d.root = root := by
  induction n generalizing d with
  | zero =>
    obtain rfl := Except.ok.inj h
    exact ⟨logs_ofRoot root, rfl⟩
  | succ n ih =>
    cases hn : after c root n with
    | error e => simp [after_succ_of_error hn] at h
    | ok d' =>
      obtain ⟨hlog, hroot⟩ := ih hn
      have hnext := (after_succ_of_ok hn).symm.trans h
      rw [askedBefore, queueAt_of_ok hn]
      exact ⟨hlog.next hnext, (root_of_next hnext).trans hroot⟩

theorem asksOnce_askedBefore (c : Catalog) (root : String) (n : Nat) :
    AsksOnce (askedBefore c root n) := by
  induction n with
  | zero => exact .nil
  | succ n ih =>
    rw [askedBefore]
    cases hn : after c root n with
    | error e =>
      rw [queueAt_of_error hn, List.append_nil]
      exact ih
    | ok d =>
      rw [queueAt_of_ok hn]
      exact (logs_after hn).1.once

theorem queueAt_subset (c : Catalog) (root : String) (n : Nat) :
    queueAt c root n ⊆ .whole root :: c.needs := by
  cases n with
  | zero => exact fun m hm => List.mem_singleton.1 hm ▸ List.mem_cons_self
  | succ n =>
    cases hn : after c root n with
    | error e =>
      rw [queueAt_of_error (after_succ_of_error hn)]
      exact List.nil_subset _
    | ok d =>
      cases hnext : d.next c with
      | error e =>
        rw [queueAt_of_error ((after_succ_of_ok hn).trans hnext)]
        exact List.nil_subset _
      | ok d' =>
        rw [queueAt_of_ok ((after_succ_of_ok hn).trans hnext)]
        exact fun m hm => List.mem_cons_of_mem _ (mayNeed_of_next hnext m hm).mem_needs

theorem askedBefore_subset (c : Catalog) (root : String) (n : Nat) :
    askedBefore c root n ⊆ .whole root :: c.needs := by
  induction n with
  | zero => exact List.nil_subset _
  | succ n ih => exact List.append_subset.2 ⟨ih, queueAt_subset c root n⟩

/-- Once nothing is asked for in a round, nothing is asked for in the next. -/
theorem queueAt_succ_eq_nil {n : Nat} (h : queueAt c root n = []) :
    queueAt c root (n + 1) = [] := by
  cases hn : after c root n with
  | error e => exact queueAt_of_error (after_succ_of_error hn)
  | ok d =>
    rw [queueAt_of_ok hn] at h
    rw [queueAt_of_ok ((after_succ_of_ok hn).trans (next_of_queue_eq_nil h)), h]

theorem queueAt_eq_nil_of_le {k n : Nat} (h : queueAt c root k = []) (hle : k ≤ n) :
    queueAt c root n = [] := by
  induction hle with
  | refl => exact h
  | step _ ih => exact queueAt_succ_eq_nil ih

/-- As long as something is asked for, as much was asked for as there were rounds. -/
theorem le_length_askedBefore {n : Nat} (h : ∀ k < n, queueAt c root k ≠ []) :
    n ≤ (askedBefore c root n).length := by
  induction n with
  | zero => exact Nat.zero_le _
  | succ n ih =>
    have hlast := List.length_pos_iff.2 (h n (Nat.lt_succ_self n))
    have hrest := ih (fun k hk => h k (Nat.lt_succ_of_lt hk))
    rw [askedBefore, List.length_append]
    omega

/-- The first grammar and what can be needed are asked for once at most, so there are no more rounds
that ask for something. -/
theorem exists_queueAt_eq_nil (c : Catalog) (root : String) :
    ∃ k ≤ c.needs.length + 1, queueAt c root k = [] := by
  by_contra hnone
  have hasks : ∀ k < c.needs.length + 2, queueAt c root k ≠ [] :=
    fun k hk hnil => hnone ⟨k, Nat.le_of_lt_succ hk, hnil⟩
  have hle := le_length_askedBefore hasks
  have hlength := (List.subperm_of_subset (asksOnce_askedBefore c root _).once
    (askedBefore_subset c root (c.needs.length + 2))).length_le
  rw [List.length_cons] at hlength
  omega

/-- **The rounds run dry**, and nothing is asked for again before they do. -/
structure RunsDry (c : Catalog) (root : String) : Prop where
  /-- What is asked for in a round is explored by a walk that ends by itself. -/
  walks : ∀ base self f n, c.grammar? root = some base → c.grammar? n.scope = some self →
    ∃ f', Walks (n.target base self) f f' ∧
      explore c root f n = .ok (f'.noteAll (c.injectionsInto n.scope))
  /-- A round fails only if the grammar that all began with is not there. -/
  missing : ∀ n e, after c root n = .error e → c.grammar? root = none ∧ e = ⟨root⟩
  /-- From some round on nothing is asked for. -/
  ends : ∃ k ≤ c.needs.length + 1, ∀ n, k ≤ n → queueAt c root n = []
  /-- In all rounds together nothing is asked for again. -/
  once : ∀ n, AsksOnce (askedBefore c root n)

/-- **Whatever grammars are in a catalog, the rounds that begin with one of them run dry.** -/
theorem runsDry (c : Catalog) (root : String) : RunsDry c root where
  walks := fun _ _ f _ hbase hself => Catalog.exists_walks hbase hself f
  missing := fun n e h => by
    induction n generalizing e with
    | zero => cases h
    | succ n ih =>
      cases hn : after c root n with
      | error e' =>
        obtain rfl := Except.error.inj ((after_succ_of_error hn).symm.trans h)
        exact ih _ hn
      | ok d =>
        have hmissing := missing_of_next ((after_succ_of_ok hn).symm.trans h)
        rw [(logs_after hn).2] at hmissing
        exact hmissing
  ends := by
    obtain ⟨k, hk, hnil⟩ := exists_queueAt_eq_nil c root
    exact ⟨k, hk, fun n hn => queueAt_eq_nil_of_le hnil hn⟩
  once := asksOnce_askedBefore c root

end Dependencies

end Highlight.Grammar
