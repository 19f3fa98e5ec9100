import Highlight.Proofs.Walks
import Highlight.Registry

/-!
# What is asked for before a grammar is compiled

Fetching grammars never loses any: what the catalog or the source has for a scope stays the same
throughout, and the catalog has it once the scope was asked for. So what is asked for can be
described by one function from scopes to grammars, and the rounds by what they have explored.

Between two rounds, the rules visited so far have been seen, given what was asked for, and so have
the tops of all grammars that were asked for, except those in the queue. The grammars to be
injected into the one that all began with were asked for when that was explored, and those that
ask for it when they are fetched later were asked for themselves. When nothing is left in the
queue, what was asked for **covers** all that the rules refer to.
-/

namespace Highlight

open Grammar

namespace Grammar.Catalog

/-! ## Adding to a catalog -/

/-- What a catalog, or else a source, has for a scope. -/
def supply (c : Catalog) (source : Option Source) (scope : String) : Option Definition :=
  (c.grammar? scope).or (source.bind (·.grammar? scope))

/-- What a catalog has is what is to be had. -/
theorem supply_of_grammar? {c : Catalog} {source : Option Source} {scope : String} {d : Definition}
    (h : c.grammar? scope = some d) : c.supply source scope = some d := by
  rw [supply, h, Option.some_or]

theorem mem_injectionsInto_inject {c : Catalog} {scope injected target i : String}
    (h : i ∈ (c.inject scope injected).injectionsInto target) :
    i ∈ c.injectionsInto target ∨ target = scope ∧ i = injected := by
  rw [injectionsInto_inject] at h
  split at h
  · next hnew =>
    exact (List.mem_append.1 h).imp_right (fun h => ⟨hnew.1, List.mem_singleton.1 h⟩)
  · exact .inl h

theorem mem_injectionsInto_foldl_inject {α : Type} {f g : α → String} {xs : List α} {c : Catalog}
    {target i : String}
    (h : i ∈ (xs.foldl (fun c x => c.inject (f x) (g x)) c).injectionsInto target) :
    i ∈ c.injectionsInto target ∨ ∃ x ∈ xs, target = f x ∧ i = g x := by
  induction xs generalizing c with
  | nil => exact .inl h
  | cons x xs ih =>
    obtain h | ⟨y, hy, heq⟩ := ih h
    · exact (mem_injectionsInto_inject h).imp_right (fun heq => ⟨x, List.mem_cons_self, heq⟩)
    · exact .inr ⟨y, List.mem_cons_of_mem _ hy, heq⟩

/-- What is to be injected into a grammar after another is added was so before, unless that other
one asks for it. -/
theorem mem_injectionsInto_add {c : Catalog} {d : Definition} {injected : List String}
    {target i : String} (h : i ∈ (c.add d injected).injectionsInto target)
    (htarget : target ≠ d.scopeName) : i ∈ c.injectionsInto target ∨ i = d.scopeName := by
  obtain h | ⟨t, -, -, rfl⟩ :=
    mem_injectionsInto_foldl_inject (f := fun t => t) (g := fun _ => d.scopeName) h
  · obtain h | ⟨j, -, rfl, -⟩ :=
      mem_injectionsInto_foldl_inject (f := fun _ => d.scopeName) (g := fun j => j) h
    · exact .inl h
    · exact absurd rfl htarget
  · exact .inr rfl

/-- **A catalog enlarges** another: it has the grammars of that one, and only grammars that were
asked for are further injected into them. -/
structure Enlarges (asked : String → Prop) (c c' : Catalog) : Prop where
  /-- The grammars. -/
  keeps : ∀ s d, c.grammar? s = some d → c'.grammar? s = some d
  /-- The grammars that are injected. -/
  injections : ∀ s d i, c.grammar? s = some d → i ∈ c'.injectionsInto s →
    i ∈ c.injectionsInto s ∨ asked i

namespace Enlarges

variable {asked asked' : String → Prop} {c c' c'' : Catalog}

theorem refl (c : Catalog) : Enlarges asked c c := ⟨fun _ _ h => h, fun _ _ _ _ h => .inl h⟩

theorem mono (h : Enlarges asked c c') (hasked : ∀ s, asked s → asked' s) :
    Enlarges asked' c c' :=
  ⟨h.keeps, fun s d i hs hi => (h.injections s d i hs hi).imp_right (hasked i)⟩

theorem trans (h : Enlarges asked c c') (h' : Enlarges asked c' c'') : Enlarges asked c c'' where
  keeps := fun s d hs => h'.keeps s d (h.keeps s d hs)
  injections := fun s d i hs hi => by
    obtain hi | hi := h'.injections s d i (h.keeps s d hs) hi
    · exact h.injections s d i hs hi
    · exact .inr hi

/-- Where a catalog has all that is to be had, one that enlarges it has the same. -/
theorem grammar?_eq {source : Option Source} {full : String → Option Definition}
    (h : Enlarges asked c c') (hsupply : ∀ s, c'.supply source s = full s) {s : String}
    (hs : c.grammar? s = full s) : c'.grammar? s = full s := by
  cases hfull : full s with
  | none =>
    have hnone := hsupply s
    rw [hfull, supply, Option.or_eq_none_iff] at hnone
    exact hnone.1
  | some d => exact h.keeps s d (hs.trans hfull)

end Enlarges

end Grammar.Catalog

/-! ## Fetching -/

namespace Fetching

/-- What has been fetched once it is seen to that the grammar of a scope is known. -/
def ensured (f : Fetching) (source : Option Source) (scope : String) : Fetching :=
  if (f.catalog.grammar? scope).isSome then f
  else match source with
    | none => f
    | some source =>
      match source.grammar? scope with
      | none => { f with requested := scope :: f.requested }
      | some d => ⟨f.catalog.add d (source.injectionsInto scope), scope :: f.requested⟩

/-- What has been fetched once it is seen to for all that is asked for in a round. -/
def fetched (f : Fetching) (source : Option Source) (queue : List Need) : Fetching :=
  queue.foldl (fun f n => f.ensured source n.scope) f

theorem run_ensure (f : Fetching) (source : Option Source) (scope : String) :
    (Fetch.ensure source scope).run f = .ok () (f.ensured source scope) := by
  have hrun : (Fetch.ensure source scope).run f =
      EStateM.run (if (f.catalog.grammar? scope).isSome then pure ()
        else match source with
          | none => pure ()
          | some source => do
            modify (fun f => { f with requested := scope :: f.requested })
            match source.grammar? scope with
              | none => pure ()
              | some d =>
                modify (fun f =>
                  { f with catalog := f.catalog.add d (source.injectionsInto scope) }) :
          Fetch Unit) f := rfl
  rw [hrun]
  unfold ensured
  split
  · rfl
  · cases source with
    | none => rfl
    | some source =>
      dsimp only
      cases hd : source.grammar? scope with
      | none => rfl
      | some d => rfl

theorem run_fetch (f : Fetching) (source : Option Source) (queue : List Need) :
    EStateM.run (queue.forM (fun n => Fetch.ensure source n.scope)) f =
      .ok () (f.fetched source queue) := by
  induction queue generalizing f with
  | nil => rfl
  | cons n queue ih =>
    have hcons : EStateM.run ((n :: queue).forM (fun n => Fetch.ensure source n.scope)) f =
        EStateM.run (Fetch.ensure source n.scope >>= fun _ =>
          queue.forM (fun n => Fetch.ensure source n.scope)) f := rfl
    rw [hcons, EStateM.run_bind, run_ensure]
    exact ih _

variable {f : Fetching} {source : Option Source} {full : String → Option Definition}

/-- Seeing to the grammar of a scope gets what is to be had for it, and what is to be had stays the
same. -/
theorem ensured_spec (hfull : NamedSupply full) (hf : ∀ s, f.catalog.supply source s = full s)
    (scope : String) :
    (∀ s, (f.ensured source scope).catalog.supply source s = full s) ∧
      f.catalog.Enlarges (· = scope) (f.ensured source scope).catalog ∧
      (f.ensured source scope).catalog.grammar? scope = full scope := by
  unfold ensured
  split
  · next hknown =>
    obtain ⟨d, hd⟩ := Option.isSome_iff_exists.1 hknown
    refine ⟨hf, .refl _, ?_⟩
    rw [← hf, Catalog.supply_of_grammar? hd, hd]
  next hknown =>
  have hnone : f.catalog.grammar? scope = none := Option.not_isSome_iff_eq_none.1 hknown
  have hscope := hf scope
  rw [Catalog.supply, hnone, Option.none_or] at hscope
  cases source with
  | none => exact ⟨hf, .refl _, hnone.trans hscope⟩
  | some source =>
    dsimp only [Option.bind_some] at hscope ⊢
    cases hd : source.grammar? scope with
    | none => exact ⟨hf, .refl _, hnone.trans (hd ▸ hscope)⟩
    | some d =>
      have hfulld : full scope = some d := hscope ▸ hd
      obtain rfl := hfull _ _ hfulld
      refine ⟨fun s => ?_, ⟨fun s d' hs => ?_, fun s d' i hs hi => ?_⟩, ?_⟩
      · rw [Catalog.supply, Catalog.grammar?_add]
        split
        · next heq => rw [Option.some_or, heq, hfulld]
        · exact hf s
      · rw [Catalog.grammar?_add, if_neg, hs]
        rintro rfl
        simp [hnone] at hs
      · refine Catalog.mem_injectionsInto_add hi ?_
        rintro rfl
        simp [hnone] at hs
      · rw [Catalog.grammar?_add, if_pos rfl, hfulld]

/-- Seeing to all that is asked for in a round. -/
theorem fetched_spec (hfull : NamedSupply full) (hf : ∀ s, f.catalog.supply source s = full s)
    (queue : List Need) :
    (∀ s, (f.fetched source queue).catalog.supply source s = full s) ∧
      f.catalog.Enlarges (fun s => ∃ n ∈ queue, s = n.scope) (f.fetched source queue).catalog ∧
      ∀ n ∈ queue, (f.fetched source queue).catalog.grammar? n.scope = full n.scope := by
  induction queue generalizing f with
  | nil => exact ⟨hf, .refl _, fun n hn => absurd hn List.not_mem_nil⟩
  | cons n queue ih =>
    obtain ⟨hsupply, henlarges, hscope⟩ := ensured_spec hfull hf n.scope
    obtain ⟨hsupplies, hrest, hscopes⟩ := ih hsupply
    refine ⟨hsupplies, ?_, fun n' hn' => ?_⟩
    · exact (henlarges.mono (fun s hs => ⟨n, List.mem_cons_self, hs⟩)).trans
        (hrest.mono (fun s ⟨n', hn', hs⟩ => ⟨n', List.mem_cons_of_mem _ hn', hs⟩))
    · obtain rfl | hn' := List.mem_cons.1 hn'
      · exact hrest.grammar?_eq hsupplies hscope
      · exact hscopes n' hn'

end Fetching

namespace Fetch

/-- **The rounds of fetching**: what is fetched and what is asked for before them and after. -/
inductive Settles (source : Option Source) :
    Fetching → Dependencies → Fetching → Dependencies → Prop
  /-- Nothing is left in the queue. -/
  | done {f : Fetching} {d : Dependencies} : d.queue = [] → Settles source f d f d
  /-- A round, and those that follow. -/
  | round {f f' : Fetching} {d d' d'' : Dependencies} :
      d.next (f.fetched source d.queue).catalog = .ok d' →
      Settles source (f.fetched source d.queue) d' f' d'' → Settles source f d f' d''

/-- A round fetches what is in the queue, and goes on with what is asked for next. -/
theorem run_rounds_succ (source : Option Source) (limit : Nat) (d : Dependencies) (f : Fetching) :
    (rounds source (limit + 1) d).run f =
      if d.queue.isEmpty then .ok () f
      else match d.next (f.fetched source d.queue).catalog with
        | .ok d' => (rounds source limit d').run (f.fetched source d.queue)
        | .error e => .error (.missing e) (f.fetched source d.queue) := by
  rw [rounds]
  split
  · rfl
  · rw [EStateM.run_bind, Fetching.run_fetch]
    dsimp only
    rw [EStateM.run_bind, EStateM.run_get]
    dsimp only
    cases d.next (f.fetched source d.queue).catalog <;> rfl

/-- When fetching ends, the rounds have settled what is asked for. -/
theorem settles_of_rounds {source : Option Source} {limit : Nat} {d : Dependencies}
    {f f' : Fetching} (h : (rounds source limit d).run f = .ok () f') :
    ∃ d', Settles source f d f' d' := by
  induction limit generalizing d f with
  | zero => simp [rounds] at h
  | succ limit ih =>
    rw [run_rounds_succ] at h
    split at h
    · next hempty =>
      obtain ⟨-, rfl⟩ := EStateM.Result.ok.inj h
      exact ⟨d, .done (List.isEmpty_iff.1 hempty)⟩
    · split at h
      · next d' hnext =>
        obtain ⟨d'', hsettles⟩ := ih h
        exact ⟨d'', .round hnext hsettles⟩
      · cases h

end Fetch

/-! ## A round -/

namespace Grammar.Dependencies

/-- What is asked for grows. -/
structure Grows (d d' : Dependencies) : Prop where
  /-- The grammar that all began with stays. -/
  root : d'.root = d.root
  /-- What was asked for stays asked for. -/
  whole : d.whole ⊆ d'.whole
  /-- What is asked for further is in the queue. -/
  asked : ∀ s ∈ d'.whole, s ∈ d.whole ∨ .whole s ∈ d'.queue
  /-- The queue has only whole grammars that are asked for, and what it had. -/
  queue : ∀ n ∈ d'.queue, n ∈ d.queue ∨ n = .whole n.scope ∧ n.scope ∈ d'.whole
  /-- What was in the queue stays there. -/
  queued : d.queue ⊆ d'.queue

namespace Grows

theorem refl (d : Dependencies) : d.Grows d where
  root := rfl
  whole := List.Subset.refl _
  asked := fun _ hs => .inl hs
  queue := fun _ hn => .inl hn
  queued := List.Subset.refl _

theorem trans {d d' d'' : Dependencies} (h : d.Grows d') (h' : d'.Grows d'') : d.Grows d'' where
  root := h'.root.trans h.root
  whole := List.Subset.trans h.whole h'.whole
  asked := fun s hs => by
    obtain hs | hs := h'.asked s hs
    · exact (h.asked s hs).imp_right (fun hs => h'.queued hs)
    · exact .inr hs
  queue := fun n hn => by
    obtain hn | hn := h'.queue n hn
    · exact (h.queue n hn).imp_right (And.imp_right (fun hn => h'.whole hn))
    · exact .inr hn
  queued := List.Subset.trans h.queued h'.queued

end Grows

/-- Asking for a whole grammar. -/
theorem grows_ask (d : Dependencies) (scope : String) :
    d.Grows (d.ask (.whole scope)) ∧ scope ∈ (d.ask (.whole scope)).whole := by
  unfold ask
  split
  · next h => exact ⟨.refl d, List.contains_iff_mem.1 h⟩
  refine ⟨⟨rfl, fun s hs => List.mem_cons_of_mem _ hs, fun s hs => ?_, fun n hn => ?_,
    List.subset_append_left _ _⟩, List.mem_cons_self⟩
  · obtain rfl | hs := List.mem_cons.1 hs
    · exact .inr (List.mem_append_right _ List.mem_cons_self)
    · exact .inl hs
  · obtain hn | hn := List.mem_append.1 hn
    · exact .inl hn
    · obtain rfl := List.mem_singleton.1 hn
      exact .inr ⟨rfl, List.mem_cons_self⟩

/-- Asking for whole grammars. -/
theorem grows_foldl_ask {needs : List Need} (hneeds : ∀ n ∈ needs, n = .whole n.scope)
    (d : Dependencies) :
    d.Grows (needs.foldl ask d) ∧ ∀ n ∈ needs, n.scope ∈ (needs.foldl ask d).whole := by
  induction needs generalizing d with
  | nil => exact ⟨.refl d, fun n hn => absurd hn List.not_mem_nil⟩
  | cons n needs ih =>
    obtain ⟨hask, hscope⟩ := d.grows_ask n.scope
    rw [← hneeds n List.mem_cons_self] at hask hscope
    obtain ⟨hrest, hscopes⟩ := ih (fun n' hn' => hneeds n' (List.mem_cons_of_mem _ hn')) (d.ask n)
    refine ⟨hask.trans hrest, fun n' hn' => ?_⟩
    obtain rfl | hn' := List.mem_cons.1 hn'
    · exact hrest.whole hscope
    · exact hscopes n' hn'

/-- **A round explores its queue**, if only whole grammars are in it. -/
theorem foldlM_explore_walked {full : String → Option Definition} {c : Catalog} {base : Definition}
    (hfull : PlainSupply full) (hc : ∀ scope d, c.grammar? scope = some d → full scope = some d)
    (hbase : c.grammar? base.scopeName = some base) {queue : List Need}
    (hqueue : ∀ n ∈ queue, n = .whole n.scope) {f f' : Findings} (hf : f.OnlyWhole)
    (h : queue.foldlM (explore c base.scopeName) f = .ok f') :
    f.Walked full base f' ∧ ∀ n ∈ queue, ∀ self, c.grammar? n.scope = some self →
      (∀ l ∈ self.tops, l.site ∈ f'.visited) ∧ ∀ i ∈ c.injectionsInto n.scope, f'.Asks i := by
  induction queue generalizing f with
  | nil =>
    obtain rfl := Except.ok.inj h
    exact ⟨.refl hf, fun n hn => absurd hn List.not_mem_nil⟩
  | cons n queue ih =>
    rw [List.foldlM_cons] at h
    cases hn : explore c base.scopeName f n with
    | error e =>
      rw [hn] at h
      cases h
    | ok f₁ =>
      rw [hn] at h
      rw [hqueue n List.mem_cons_self] at hn
      obtain ⟨hwalked, hexplored⟩ := explore_walked hfull hc hbase hf hn
      obtain ⟨hrest, hall⟩ := ih (fun n' hn' => hqueue n' (List.mem_cons_of_mem _ hn'))
        hwalked.onlyWhole h
      refine ⟨hwalked.trans hrest, fun n' hn' self hself => ?_⟩
      obtain rfl | hn' := List.mem_cons.1 hn'
      · obtain ⟨htops, hinjections⟩ := hexplored self hself
        exact ⟨fun l hl => hrest.visited (htops l hl), fun i hi => hrest.needs (hinjections i hi)⟩
      · exact hall n' hn' self hself

end Grammar.Dependencies

/-- **The state between two rounds**: what has been explored, seen and asked for. -/
structure Underway (full : String → Option Definition) (source : Option Source)
    (base : Definition) (f : Fetching) (d : Dependencies) (visited : Site → Prop) : Prop where
  /-- What is to be had stays the same. -/
  supply : ∀ s, f.catalog.supply source s = full s
  /-- The grammar that all began with. -/
  root : d.root = base.scopeName
  /-- It was asked for first. -/
  begun : base.scopeName ∈ d.whole
  /-- The queue has only whole grammars that are asked for. -/
  queue : ∀ n ∈ d.queue, n = .whole n.scope ∧ n.scope ∈ d.whole
  /-- All grammars asked for are in the queue, or have been got, and their tops visited. -/
  explored : ∀ s ∈ d.whole, .whole s ∈ d.queue ∨ f.catalog.grammar? s = full s ∧
    ∀ self, full s = some self → ∀ l ∈ self.tops, visited l.site
  /-- The rules visited have been seen. -/
  seen : ∀ self l, full self.scopeName = some self → self.Holds l → visited l.site →
    Seen base self visited (· ∈ d.whole) l
  /-- The grammars to be injected are asked for once the first grammar has been explored. -/
  injections : .whole base.scopeName ∈ d.queue ∨
    ∀ i ∈ f.catalog.injectionsInto base.scopeName, i ∈ d.whole

/-- Before the first round. -/
theorem Underway.initial {full : String → Option Definition} {source : Option Source}
    {base : Definition} {f : Fetching} (hf : ∀ s, f.catalog.supply source s = full s) :
    Underway full source base f (.ofRoot base.scopeName) (fun _ => False) where
  supply := hf
  root := rfl
  begun := List.mem_singleton_self _
  queue := fun n hn => by
    obtain rfl := List.mem_singleton.1 hn
    exact ⟨rfl, List.mem_singleton_self _⟩
  explored := fun s hs => by
    obtain rfl := List.mem_singleton.1 hs
    exact .inl (List.mem_singleton_self _)
  seen := fun _ _ _ _ h => h.elim
  injections := .inl (List.mem_singleton_self _)

/-- After the next fetching, all that is asked for has been got. -/
theorem Underway.got {full : String → Option Definition} {source : Option Source}
    {base : Definition} {f : Fetching} {d : Dependencies} {visited : Site → Prop}
    (hfull : PlainSupply full) (h : Underway full source base f d visited) :
    ∀ s ∈ d.whole, (f.fetched source d.queue).catalog.grammar? s = full s := by
  obtain ⟨hsupply, henlarges, hscopes⟩ := Fetching.fetched_spec hfull.named h.supply d.queue
  intro s hs
  obtain hqueued | ⟨hknown, -⟩ := h.explored s hs
  · exact hscopes _ hqueued
  · exact henlarges.grammar?_eq hsupply hknown

/-- After the next fetching, all grammars to be injected are asked for, unless the grammar that all
began with has not been explored: those fetched are asked for, and they alone ask for more. -/
theorem Underway.injected {full : String → Option Definition} {source : Option Source}
    {base : Definition} {f : Fetching} {d : Dependencies} {visited : Site → Prop}
    (hfull : PlainSupply full) (hbase : full base.scopeName = some base)
    (h : Underway full source base f d visited) : .whole base.scopeName ∈ d.queue ∨
      ∀ i ∈ (f.fetched source d.queue).catalog.injectionsInto base.scopeName, i ∈ d.whole := by
  obtain ⟨-, henlarges, -⟩ := Fetching.fetched_spec hfull.named h.supply d.queue
  obtain hqueued | ⟨hknown, -⟩ := h.explored _ h.begun
  · exact .inl hqueued
  obtain hqueued | hinjections := h.injections
  · exact .inl hqueued
  refine .inr (fun i hi => ?_)
  obtain hi | ⟨n, hn, rfl⟩ := henlarges.injections _ base i (hknown.trans hbase) hi
  · exact hinjections i hi
  · exact (h.queue n hn).2

/-- **A round keeps up** what holds between two rounds. -/
theorem Underway.next {full : String → Option Definition} {source : Option Source}
    {base : Definition} {f : Fetching} {d d' : Dependencies} {visited : Site → Prop}
    (hfull : PlainSupply full) (hbase : full base.scopeName = some base)
    (h : Underway full source base f d visited)
    (hnext : d.next (f.fetched source d.queue).catalog = .ok d') :
    ∃ visited', Underway full source base (f.fetched source d.queue) d' visited' := by
  have hsupply := (Fetching.fetched_spec hfull.named h.supply d.queue).1
  have hgot := h.got hfull
  have hinjected := h.injected hfull hbase
  generalize f.fetched source d.queue = f' at *
  have hc : ∀ s g, f'.catalog.grammar? s = some g → full s = some g :=
    fun s g hg => (hsupply s).symm.trans (Catalog.supply_of_grammar? hg)
  have hroot : f'.catalog.grammar? base.scopeName = some base := (hgot _ h.begun).trans hbase
  rw [Dependencies.next] at hnext
  cases hfound : d.queue.foldlM (Dependencies.explore f'.catalog d.root) {} with
  | error e =>
    rw [hfound] at hnext
    cases hnext
  | ok found =>
  rw [hfound] at hnext
  obtain rfl := Except.ok.inj hnext
  rw [h.root] at hfound
  obtain ⟨hwalked, hexplored⟩ := Dependencies.foldlM_explore_walked hfull hc hroot
    (fun n hn => (h.queue n hn).1) (fun n hn => absurd hn List.not_mem_nil) hfound
  obtain ⟨hgrows, hasked⟩ := Dependencies.grows_foldl_ask hwalked.onlyWhole { d with queue := [] }
  generalize found.needs.foldl Dependencies.ask { d with queue := [] } = d' at *
  refine ⟨fun s => visited s ∨ s ∈ found.visited, hsupply, hgrows.root.trans h.root,
    hgrows.whole h.begun, fun n hn => (hgrows.queue n hn).resolve_left List.not_mem_nil,
    fun s hs => ?_, fun self l hself hl hmem => ?_, .inr (fun i hi => ?_)⟩
  · obtain hs | hqueued := hgrows.asked s hs
    · refine .inr ⟨hgot s hs, fun self hself l hl => ?_⟩
      obtain hqueued | ⟨-, htops⟩ := h.explored s hs
      · exact .inr ((hexplored _ hqueued self ((hgot s hs).trans hself)).1 l hl)
      · exact .inl (htops self hself l hl)
    · exact .inl hqueued
  · obtain hmem | hmem := hmem
    · exact (h.seen self l hself hl hmem).mono (fun _ hs => .inl hs) (fun _ hs => hgrows.whole hs)
    · exact ((hwalked.seen self l hself hl hmem).resolve_left List.not_mem_nil).mono
        (fun _ hs => .inr hs) (fun _ hs => hasked _ hs)
  · obtain hqueued | hinjected := hinjected
    · exact hasked _ ((hexplored _ hqueued base hroot).2 i hi)
    · exact hgrows.whole (hinjected i hi)

/-- **What was asked for covers** all that the rules of grammars refer to: the grammars asked for
are plain, their tops are visited, and the rules visited have been seen. -/
structure Grammar.Catalog.Covers (c : Catalog) (base : Definition) (asked : String → Prop)
    (visited : Site → Prop) : Prop where
  /-- The grammar that all began with. -/
  root : c.grammar? base.scopeName = some base
  /-- It was asked for. -/
  begun : asked base.scopeName
  /-- The grammars are plain. -/
  plain : ∀ s, asked s → ∀ self, c.grammar? s = some self →
    self.scopeName = s ∧ ∃ names, self.Plain names
  /-- The tops of the grammars asked for are visited. -/
  tops : ∀ s, asked s → ∀ self, c.grammar? s = some self → ∀ l ∈ self.tops, visited l.site
  /-- The rules visited have been seen. -/
  seen : ∀ s, asked s → ∀ self, c.grammar? s = some self → ∀ l, self.Holds l → visited l.site →
    Seen base self visited asked l
  /-- The grammars to be injected were asked for. -/
  injections : ∀ i ∈ c.injectionsInto base.scopeName, asked i

/-- **When the rounds have settled, what was asked for covers everything**, and the catalog has of
it all that was to be had. -/
theorem Underway.covers {full : String → Option Definition} {source : Option Source}
    {base : Definition} {f f' : Fetching} {d d' : Dependencies} {visited : Site → Prop}
    (hfull : PlainSupply full) (hbase : full base.scopeName = some base)
    (h : Underway full source base f d visited) (hsettles : Fetch.Settles source f d f' d') :
    (∀ s ∈ d'.whole, f'.catalog.grammar? s = full s) ∧
      ∃ visited', f'.catalog.Covers base (· ∈ d'.whole) visited' := by
  induction hsettles generalizing visited with
  | round hnext _ ih =>
    obtain ⟨visited', hunderway⟩ := h.next hfull hbase hnext
    exact ih hunderway
  | @done f d hempty =>
    have hexplored : ∀ s ∈ d.whole, f.catalog.grammar? s = full s ∧
        ∀ self, full s = some self → ∀ l ∈ self.tops, visited l.site := by
      intro s hs
      obtain hqueued | hgot := h.explored s hs
      · simp [hempty] at hqueued
      · exact hgot
    have hgot : ∀ s ∈ d.whole, ∀ self, f.catalog.grammar? s = some self → full s = some self :=
      fun s hs self hself => (hexplored s hs).1.symm.trans hself
    refine ⟨fun s hs => (hexplored s hs).1, visited, (hexplored _ h.begun).1.trans hbase, h.begun,
      fun s hs self hself => hfull s self (hgot s hs self hself),
      fun s hs self hself => (hexplored s hs).2 self (hgot s hs self hself),
      fun s hs self hself l hl => ?_, ?_⟩
    · have hfullself := hgot s hs self hself
      obtain ⟨rfl, -⟩ := hfull s self hfullself
      exact h.seen self l hfullself hl
    · obtain hqueued | hinjections := h.injections
      · simp [hempty] at hqueued
      · exact hinjections

end Highlight
